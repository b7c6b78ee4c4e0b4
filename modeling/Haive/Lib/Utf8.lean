import Haive.Lib.PercentText
import Mathlib

/-!
# UTF-8

The bytes of a UTF-16 text, and the text of any bytes as a decoder reads it that puts U+FFFD for what is no
character. A text that is cut at a byte is the text cut at a character, with one U+FFFD behind it where the
cut went through a character (`decode_take`).
-/

namespace Lib.Units

/-! ## Characters and units -/

/-- The units of a character. -/
def pointUnits (c : Nat) : List UInt16 :=
  if c < 0x10000 then [c.toUInt16]
  else [(0xd800 + (c - 0x10000) / 0x400).toUInt16, (0xdc00 + (c - 0x10000) % 0x400).toUInt16]

/-- `s.toWellFormed()`. -/
def toWellFormed (t : List UInt16) : List UInt16 := (codePoints t).flatMap pointUnits

/-- A unit stays, or is a surrogate alone. -/
def Repaired (u v : UInt16) : Prop := v = u ∨ (isSurrogate u = true ∧ v = 0xfffd)

theorem pointUnits_pair {u v : UInt16} (hu : isLeading u = true) (hv : isTrailing v = true) :
    pointUnits (pairPoint u v) = [u, v] := by
  have hlead := leading_bounds hu
  have htrail := trailing_bounds hv
  have hbounds := pairPoint_bounds hu hv
  have hhigh : 0xd800 + (pairPoint u v - 0x10000) / 0x400 = u.toNat := by
    unfold pairPoint
    omega
  have hlow : 0xdc00 + (pairPoint u v - 0x10000) % 0x400 = v.toNat := by
    unfold pairPoint
    omega
  rw [pointUnits, if_neg (by omega), hhigh, hlow]
  exact congrArg₂ (fun a b => [a, b]) UInt16.ofNat_toNat UInt16.ofNat_toNat

theorem pointUnits_unit (u : UInt16) : ∃ v, pointUnits (unitPoint u) = [v] ∧ Repaired u v := by
  rw [pointUnits, if_pos (unitPoint_lt u), unitPoint]
  split
  · next hsurrogate => exact ⟨0xfffd, by simp, .inr ⟨hsurrogate, rfl⟩⟩
  · exact ⟨u, congrArg ([·]) UInt16.ofNat_toNat, .inl rfl⟩

theorem forall₂_toWellFormed (t : List UInt16) : List.Forall₂ Repaired t (toWellFormed t) := by
  induction t using codePoints.induct with
  | case1 => exact .nil
  | case2 u =>
    obtain ⟨v, hv, hrepaired⟩ := pointUnits_unit u
    rw [toWellFormed, codePoints, List.flatMap_cons, List.flatMap_nil, hv]
    exact .cons hrepaired .nil
  | case3 u v rest hpair ih =>
    obtain ⟨hu, hv⟩ := Bool.and_eq_true_iff.mp hpair
    rw [toWellFormed, codePoints_pair hu hv, List.flatMap_cons, pointUnits_pair hu hv]
    exact .cons (.inl rfl) (.cons (.inl rfl) ih)
  | case4 u v rest hpair ih =>
    obtain ⟨w, hw, hrepaired⟩ := pointUnits_unit u
    rw [toWellFormed, codePoints_cons_cons, if_neg hpair, List.flatMap_cons, hw]
    exact .cons hrepaired ih

/-! ## Bytes -/

/-- `Buffer.from(s)`. -/
def bytes (t : List UInt16) : List Nat := (codePoints t).flatMap utf8

/-- Where a decoder stands: the bytes that the character still needs, its bits so far and the bounds of the
next byte. -/
structure Decoder where
  needed : Nat := 0
  point : Nat := 0
  low : Nat := 0x80
  high : Nat := 0xbf

namespace Decoder

/-- The first byte of a character, with what is read at once. -/
def first (b : Nat) : List Nat × Decoder :=
  if b < 0x80 then ([b], {})
  else if 0xc2 ≤ b ∧ b ≤ 0xdf then ([], { needed := 1, point := b - 0xc0 })
  else if 0xe0 ≤ b ∧ b ≤ 0xef then
    ([], { needed := 2, point := b - 0xe0, low := if b = 0xe0 then 0xa0 else 0x80,
           high := if b = 0xed then 0x9f else 0xbf })
  else if 0xf0 ≤ b ∧ b ≤ 0xf4 then
    ([], { needed := 3, point := b - 0xf0, low := if b = 0xf0 then 0x90 else 0x80,
           high := if b = 0xf4 then 0x8f else 0xbf })
  else ([0xfffd], {})

/-- A byte that does not continue the character is read as the first one of the next. -/
def step (d : Decoder) (b : Nat) : List Nat × Decoder :=
  if d.needed = 0 then first b
  else if d.low ≤ b ∧ b ≤ d.high then
    let point := d.point * 0x40 + (b - 0x80)
    if d.needed = 1 then ([point], {}) else ([], { needed := d.needed - 1, point })
  else (0xfffd :: (first b).1, (first b).2)

/-- What bytes are read as, and where the decoder stands behind them. -/
def feed (d : Decoder) : List Nat → List Nat × Decoder
  | [] => ([], d)
  | b :: rest => ((d.step b).1 ++ ((d.step b).2.feed rest).1, ((d.step b).2.feed rest).2)

/-- The end of the bytes; a character that is not complete is U+FFFD. -/
def finish (d : Decoder) : List Nat := if d.needed = 0 then [] else [0xfffd]

theorem feed_append (d : Decoder) (a b : List Nat) :
    d.feed (a ++ b) = ((d.feed a).1 ++ ((d.feed a).2.feed b).1, ((d.feed a).2.feed b).2) := by
  induction a generalizing d with
  | nil => rfl
  | cons x a ih =>
    rw [List.cons_append, feed, feed, ih]
    simp only [List.append_assoc]

/-- A byte that continues the character. -/
theorem step_more {d : Decoder} {b : Nat} (hneeded : 1 < d.needed) (hlow : d.low ≤ b) (hhigh : b ≤ d.high) :
    d.step b = ([], { needed := d.needed - 1, point := d.point * 0x40 + (b - 0x80) }) := by
  rw [step, if_neg (by omega), if_pos ⟨hlow, hhigh⟩]
  exact if_neg (by omega)

/-- A byte that ends the character. -/
theorem step_last {d : Decoder} {b : Nat} (hneeded : d.needed = 1) (hlow : d.low ≤ b) (hhigh : b ≤ d.high) :
    d.step b = ([d.point * 0x40 + (b - 0x80)], {}) := by
  rw [step, if_neg (by omega), if_pos ⟨hlow, hhigh⟩]
  exact if_pos hneeded

end Decoder

/-- `buffer.toString()`. -/
def decode (bs : List Nat) : List UInt16 :=
  ((Decoder.feed {} bs).1 ++ (Decoder.feed {} bs).2.finish).flatMap pointUnits

/-- A character that UTF-8 has bytes for. -/
def IsScalar (c : Nat) : Prop := c < 0x110000 ∧ (c < 0xd800 ∨ 0xdfff < c)

theorem unitPoint_scalar (u : UInt16) : IsScalar (unitPoint u) := by
  have hlt := u.toNat_lt
  rw [unitPoint]
  split
  · exact ⟨by decide, by decide⟩
  · next h =>
    rw [isSurrogate, isLeading, isTrailing, Bool.or_eq_true, Bool.and_eq_true, Bool.and_eq_true] at h
    simp only [decide_eq_true_eq, UInt16.le_iff_toNat_le, UInt16.reduceToNat] at h
    exact ⟨by omega, by omega⟩

theorem isScalar_of_mem_codePoints {t : List UInt16} {c : Nat} (h : c ∈ codePoints t) : IsScalar c := by
  induction t using codePoints.induct with
  | case1 => cases h
  | case2 u =>
    rw [List.mem_singleton.mp h]
    exact unitPoint_scalar u
  | case3 u v rest hpair ih =>
    obtain ⟨hu, hv⟩ := Bool.and_eq_true_iff.mp hpair
    rw [codePoints_pair hu hv] at h
    rcases List.mem_cons.mp h with heq | h
    · rw [heq]
      obtain ⟨hlow, hhigh⟩ := pairPoint_bounds hu hv
      exact ⟨hhigh, .inr (by omega)⟩
    · exact ih h
  | case4 u v rest hpair ih =>
    rw [codePoints_cons_cons, if_neg hpair] at h
    rcases List.mem_cons.mp h with heq | h
    · exact heq ▸ unitPoint_scalar u
    · exact ih h

/-! ## What the decoder makes of a character -/

/-- Bytes that are read as the character, and of which any part but the empty one leaves the decoder
waiting. -/
structure Reads (bs : List Nat) (c : Nat) : Prop where
  whole : Decoder.feed {} bs = ([c], {})
  part : ∀ n, 0 < n → n < bs.length →
    (Decoder.feed {} (bs.take n)).1 = [] ∧ (Decoder.feed {} (bs.take n)).2.needed ≠ 0

/-- The last byte holds the low six bits. -/
theorem step_end (c : Nat) : Decoder.step { needed := 1, point := c / 0x40 } (0x80 + c % 0x40) = ([c], {}) := by
  rw [Decoder.step_last rfl (Nat.le_add_right 0x80 _) (by show _ ≤ 0xbf; omega)]
  show ([c / 0x40 * 0x40 + (0x80 + c % 0x40 - 0x80)], _) = _
  rw [Nat.add_sub_cancel_left, Nat.div_add_mod']

theorem reads_two {c : Nat} (hlow : 0x80 ≤ c) (hhigh : c < 0x800) : Reads [0xc0 + c / 0x40, 0x80 + c % 0x40] c := by
  have hfirst : Decoder.step {} (0xc0 + c / 0x40) = ([], { needed := 1, point := c / 0x40 }) := by
    rw [Decoder.step, if_pos rfl, Decoder.first, if_neg (by omega), if_pos (by omega), Nat.add_sub_cancel_left]
  have hlast := step_end c
  refine ⟨by simp only [Decoder.feed, hfirst, hlast, List.nil_append, List.append_nil], fun n hpos hlt => ?_⟩
  obtain rfl : n = 1 := by
    simp only [List.length_cons, List.length_nil] at hlt
    omega
  simp [Decoder.feed, hfirst]

/-- The first of three bytes leaves bounds that the second one meets. -/
theorem step_three {c : Nat} (hlow : 0x800 ≤ c) (hhigh : c < 0x10000) (hscalar : IsScalar c) :
    ∃ low high, Decoder.step {} (0xe0 + c / 0x1000) = ([], ⟨2, c / 0x1000, low, high⟩) ∧
      low ≤ 0x80 + c / 0x40 % 0x40 ∧ 0x80 + c / 0x40 % 0x40 ≤ high := by
  obtain ⟨-, hgap⟩ := hscalar
  refine ⟨if 0xe0 + c / 0x1000 = 0xe0 then 0xa0 else 0x80, if 0xe0 + c / 0x1000 = 0xed then 0x9f else 0xbf, ?_, ?_, ?_⟩
  · rw [Decoder.step, if_pos rfl, Decoder.first, if_neg (by omega), if_neg (by omega), if_pos (by omega),
      Nat.add_sub_cancel_left]
  · split <;> omega
  · split <;> omega

theorem reads_three {c : Nat} (hlow : 0x800 ≤ c) (hhigh : c < 0x10000) (hscalar : IsScalar c) :
    Reads [0xe0 + c / 0x1000, 0x80 + c / 0x40 % 0x40, 0x80 + c % 0x40] c := by
  obtain ⟨low, high, hfirst, hmin, hmax⟩ := step_three hlow hhigh hscalar
  have hsecond : Decoder.step ⟨2, c / 0x1000, low, high⟩ (0x80 + c / 0x40 % 0x40) =
      ([], { needed := 1, point := c / 0x40 }) := by
    rw [Decoder.step_more Nat.one_lt_two hmin hmax]
    show ([], ({ needed := 1, point := c / 0x1000 * 0x40 + (0x80 + c / 0x40 % 0x40 - 0x80) } : Decoder)) = _
    rw [show c / 0x1000 * 0x40 + (0x80 + c / 0x40 % 0x40 - 0x80) = c / 0x40 by omega]
  have hlast := step_end c
  refine ⟨by simp only [Decoder.feed, hfirst, hsecond, hlast, List.nil_append, List.append_nil], fun n hpos hlt => ?_⟩
  simp only [List.length_cons, List.length_nil] at hlt
  obtain rfl | rfl : n = 1 ∨ n = 2 := by omega
  · simp [Decoder.feed, hfirst]
  · simp [Decoder.feed, hfirst, hsecond]

/-- The first of four bytes leaves bounds that the second one meets. -/
theorem step_four {c : Nat} (hlow : 0x10000 ≤ c) (hhigh : c < 0x110000) :
    ∃ low high, Decoder.step {} (0xf0 + c / 0x40000) = ([], ⟨3, c / 0x40000, low, high⟩) ∧
      low ≤ 0x80 + c / 0x1000 % 0x40 ∧ 0x80 + c / 0x1000 % 0x40 ≤ high := by
  refine ⟨if 0xf0 + c / 0x40000 = 0xf0 then 0x90 else 0x80, if 0xf0 + c / 0x40000 = 0xf4 then 0x8f else 0xbf, ?_, ?_, ?_⟩
  · rw [Decoder.step, if_pos rfl, Decoder.first, if_neg (by omega), if_neg (by omega), if_neg (by omega),
      if_pos (by omega), Nat.add_sub_cancel_left]
  · split <;> omega
  · split <;> omega

theorem reads_four {c : Nat} (hlow : 0x10000 ≤ c) (hhigh : c < 0x110000) :
    Reads [0xf0 + c / 0x40000, 0x80 + c / 0x1000 % 0x40, 0x80 + c / 0x40 % 0x40, 0x80 + c % 0x40] c := by
  obtain ⟨low, high, hfirst, hmin, hmax⟩ := step_four hlow hhigh
  have hsecond : Decoder.step ⟨3, c / 0x40000, low, high⟩ (0x80 + c / 0x1000 % 0x40) =
      ([], { needed := 2, point := c / 0x1000 }) := by
    rw [Decoder.step_more (Nat.lt_succ_of_lt Nat.one_lt_two) hmin hmax]
    show ([], ({ needed := 2, point := c / 0x40000 * 0x40 + (0x80 + c / 0x1000 % 0x40 - 0x80) } : Decoder)) = _
    rw [show c / 0x40000 * 0x40 + (0x80 + c / 0x1000 % 0x40 - 0x80) = c / 0x1000 by omega]
  have hthird : Decoder.step { needed := 2, point := c / 0x1000 } (0x80 + c / 0x40 % 0x40) =
      ([], { needed := 1, point := c / 0x40 }) := by
    rw [Decoder.step_more Nat.one_lt_two (Nat.le_add_right 0x80 _) (by show _ ≤ 0xbf; omega)]
    show ([], ({ needed := 1, point := c / 0x1000 * 0x40 + (0x80 + c / 0x40 % 0x40 - 0x80) } : Decoder)) = _
    rw [show c / 0x1000 * 0x40 + (0x80 + c / 0x40 % 0x40 - 0x80) = c / 0x40 by omega]
  have hlast := step_end c
  refine ⟨by simp only [Decoder.feed, hfirst, hsecond, hthird, hlast, List.nil_append, List.append_nil],
    fun n hpos hlt => ?_⟩
  simp only [List.length_cons, List.length_nil] at hlt
  obtain rfl | rfl | rfl : n = 1 ∨ n = 2 ∨ n = 3 := by omega
  · simp [Decoder.feed, hfirst]
  · simp [Decoder.feed, hfirst, hsecond]
  · simp [Decoder.feed, hfirst, hsecond, hthird]

theorem reads_utf8 {c : Nat} (h : IsScalar c) : Reads (utf8 c) c := by
  rw [utf8]
  split
  · next h1 =>
    refine ⟨by simp [Decoder.feed, Decoder.step, Decoder.first, h1], fun n hpos hlt => ?_⟩
    rw [List.length_singleton] at hlt
    omega
  · split
    · exact reads_two (by omega) (by omega)
    · split
      · exact reads_three (by omega) (by omega) h
      · exact reads_four (by omega) h.1

/-! ## A cut at a byte -/

theorem feed_take {cs : List Nat} (h : ∀ c ∈ cs, IsScalar c) (n : Nat) :
    ∃ front tail, front <+: cs ∧ (tail = [] ∨ tail = [0xfffd]) ∧
      (Decoder.feed {} ((cs.flatMap utf8).take n)).1 ++ (Decoder.feed {} ((cs.flatMap utf8).take n)).2.finish =
        front ++ tail := by
  induction cs generalizing n with
  | nil => exact ⟨[], [], List.prefix_refl _, .inl rfl, by rw [List.flatMap_nil, List.take_nil]; rfl⟩
  | cons c cs ih =>
    have hreads := reads_utf8 (h c List.mem_cons_self)
    rw [List.flatMap_cons]
    by_cases hcut : n < (utf8 c).length
    · -- the cut goes through this character, or stands before it
      rw [List.take_append_of_le_length (Nat.le_of_lt hcut)]
      rcases Nat.eq_zero_or_pos n with rfl | hpos
      · exact ⟨[], [], List.nil_prefix, .inl rfl, rfl⟩
      · obtain ⟨hnone, hwaits⟩ := hreads.part n hpos hcut
        exact ⟨[], [0xfffd], List.nil_prefix, .inr rfl, by rw [hnone, Decoder.finish, if_neg hwaits]⟩
    · obtain ⟨front, tail, hprefix, htail, hfront⟩ := ih (fun d hd => h d (List.mem_cons_of_mem _ hd)) (n - (utf8 c).length)
      rw [List.take_append, List.take_of_length_le (Nat.le_of_not_lt hcut), Decoder.feed_append, hreads.whole]
      refine ⟨c :: front, tail, List.cons_prefix_cons.mpr ⟨rfl, hprefix⟩, htail, ?_⟩
      simp only [List.cons_append, List.nil_append, hfront]

/-- A text cut at a byte: the text cut at a character, and U+FFFD for what is left of the next one. -/
theorem decode_take (t : List UInt16) (n : Nat) :
    ∃ k tail, decode ((bytes t).take n) = (toWellFormed t).take k ++ tail ∧ (tail = [] ∨ tail = [0xfffd]) := by
  obtain ⟨front, tail, ⟨back, hback⟩, htail, hfeed⟩ :=
    @feed_take (codePoints t) (fun c hc => isScalar_of_mem_codePoints hc) n
  have hwhole : toWellFormed t = front.flatMap pointUnits ++ back.flatMap pointUnits := by
    rw [toWellFormed, ← hback, List.flatMap_append]
  refine ⟨(front.flatMap pointUnits).length, tail.flatMap pointUnits, ?_, ?_⟩
  · rw [decode, bytes, hfeed, List.flatMap_append, hwhole, List.take_left]
  · rcases htail with rfl | rfl
    · exact .inl rfl
    · exact .inr (by decide)

end Lib.Units

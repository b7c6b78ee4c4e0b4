import Haive.Schemas.GitUrl

/-!
# The scanner of addresses

Where the scanner finds an address and where it lets it end. A userinfo in front of the rest of an address
only moves both (`findUrlScheme_lead`, `addressLength_lead`), and behind the next scheme of a word nothing
counts (`addressLength_local`).
-/

namespace Haive.Schemas

open Lib (lastIdx throughLast findIdx_behind findIdx_in_front findIdx_spec lastIdx_eq_none_iff lastIdx_append lastIdx_spec
  lastIdx_lead lastIdx_lt)
open Lib.Units

/-- A letter, and behind it what may continue a scheme. -/
def IsScheme (s : Text) : Prop := (∃ u, s.head? = some u ∧ isLetter u = true) ∧ ∀ u ∈ s, inScheme u = true

/-! ## Schemes -/

/-- What one character does to the search. -/
theorem findFrom_cons (start : Option Nat) (index : Nat) (u : UInt16) (rest : Text) :
    findFrom start index (u :: rest) =
      if isLetter u then findFrom (start.or (some index)) (index + 1) rest
      else if continuesScheme u then findFrom start (index + 1) rest
      else
        match start with
        | some s => if schemeEnd.isPrefixOf (u :: rest) then some (s, index + 3) else findFrom none (index + 1) rest
        | none => findFrom none (index + 1) rest := by
  cases start <;> rfl

/-- The run that a found scheme ends stands at the cursor or starts behind it. -/
theorem findFrom_spec {t : Text} {start : Option Nat} {index a b : Nat} (h : findFrom start index t = some (a, b)) :
    (start = some a ∧ ∃ s rest, t = s ++ (schemeEnd ++ rest) ∧ (∀ u ∈ s, inScheme u = true) ∧ b = index + s.length + 3) ∨
      ∃ w s rest, t = w ++ (s ++ (schemeEnd ++ rest)) ∧ IsScheme s ∧ a = index + w.length ∧
        b = index + w.length + s.length + 3 := by
  induction t generalizing start index with
  | nil => cases h
  | cons u t ih =>
    have hbehind : (∃ w s rest, t = w ++ (s ++ (schemeEnd ++ rest)) ∧ IsScheme s ∧ a = index + 1 + w.length ∧
        b = index + 1 + w.length + s.length + 3) → ∃ w s rest, u :: t = w ++ (s ++ (schemeEnd ++ rest)) ∧ IsScheme s ∧
        a = index + w.length ∧ b = index + w.length + s.length + 3 := by
      rintro ⟨w, s, rest, rfl, hs, ha, hb⟩
      exact ⟨u :: w, s, rest, rfl, hs, by rw [List.length_cons]; omega, by rw [List.length_cons]; omega⟩
    rw [findFrom_cons] at h
    split at h
    · next hu =>
      have hin : inScheme u = true := by rw [inScheme, hu, Bool.true_or]
      rcases ih h with ⟨hstart, s, rest, rfl, hs, hb⟩ | hlater
      · have hall : ∀ v ∈ u :: s, inScheme v = true := List.forall_mem_cons.mpr ⟨hin, hs⟩
        cases start with
        | none =>
          obtain rfl : index = a := Option.some.inj hstart
          exact .inr ⟨[], u :: s, rest, rfl, ⟨⟨u, rfl, hu⟩, hall⟩, rfl, by rw [List.length_nil, List.length_cons]; omega⟩
        | some s₀ => exact .inl ⟨hstart, u :: s, rest, rfl, hall, by rw [List.length_cons]; omega⟩
      · exact .inr (hbehind hlater)
    · split at h
      · next hu =>
        have hin : inScheme u = true := by rw [inScheme, hu, Bool.or_true]
        rcases ih h with ⟨hstart, s, rest, rfl, hs, hb⟩ | hlater
        · exact .inl ⟨hstart, u :: s, rest, rfl, List.forall_mem_cons.mpr ⟨hin, hs⟩, by rw [List.length_cons]; omega⟩
        · exact .inr (hbehind hlater)
      · have hnone : findFrom none (index + 1) t = some (a, b) → ∃ w s rest, u :: t = w ++ (s ++ (schemeEnd ++ rest)) ∧
            IsScheme s ∧ a = index + w.length ∧ b = index + w.length + s.length + 3 := fun h =>
          hbehind ((ih h).resolve_left fun hstart => Option.some_ne_none a hstart.1.symm)
        cases start with
        | none => exact .inr (hnone h)
        | some s₀ =>
          dsimp only at h
          split at h
          · next hp =>
            obtain ⟨rest, hrest⟩ := List.isPrefixOf_iff_prefix.mp hp
            obtain ⟨rfl, rfl⟩ := Prod.mk.injEq .. ▸ Option.some.inj h
            exact .inl ⟨rfl, [], rest, hrest.symm, List.forall_mem_nil _, rfl⟩
          · exact .inr (hnone h)

theorem findUrlScheme_spec {t : Text} {a b : Nat} (h : findUrlScheme t = some (a, b)) :
    ∃ w s rest, t = w ++ (s ++ (schemeEnd ++ rest)) ∧ IsScheme s ∧ w.length = a ∧ w.length + s.length + 3 = b := by
  rcases findFrom_spec h with ⟨hstart, -⟩ | ⟨w, s, rest, ht, hs, ha, hb⟩
  · cases hstart
  · exact ⟨w, s, rest, ht, hs, by omega, by omega⟩

theorem findFrom_bounds {t : Text} {start : Option Nat} {index : Nat} {found : Nat × Nat}
    (h : findFrom start index t = some found) : index + 3 ≤ found.2 ∧ found.2 ≤ index + t.length := by
  have hthree : schemeEnd.length = 3 := rfl
  rcases findFrom_spec (b := found.2) h with ⟨-, s, rest, rfl, -, hb⟩ | ⟨w, s, rest, rfl, -, -, hb⟩ <;>
    simp only [List.length_append] <;> omega

/-- A scheme that is found needs no more than the text. -/
theorem findFrom_append {t : Text} {start : Option Nat} {index : Nat} {found : Nat × Nat}
    (h : findFrom start index t = some found) (more : Text) : findFrom start index (t ++ more) = some found := by
  induction t generalizing start index with
  | nil => cases h
  | cons u t ih =>
    rw [List.cons_append]
    rw [findFrom_cons] at h ⊢
    split
    · next hu => exact ih (by rwa [if_pos hu] at h)
    · next hu =>
      rw [if_neg hu] at h
      split
      · next hu => exact ih (by rwa [if_pos hu] at h)
      · next hu =>
        rw [if_neg hu] at h
        cases start with
        | none => exact ih h
        | some s =>
          dsimp only at h ⊢
          split at h
          · next hp =>
            have hgrow : schemeEnd.isPrefixOf (u :: (t ++ more)) = true := List.isPrefixOf_iff_prefix.mpr
              ((List.isPrefixOf_iff_prefix.mp hp).trans (List.prefix_append (u :: t) more))
            rw [if_pos hgrow, h]
          · next hp =>
            have hlength : schemeEnd.length ≤ (u :: t).length := by
              have hbounds := findFrom_bounds h
              rw [List.length_cons, show schemeEnd.length = 3 from rfl]
              omega
            have hsame : ¬ schemeEnd.isPrefixOf (u :: (t ++ more)) = true := fun hgrow =>
              hp (List.isPrefixOf_iff_prefix.mpr (List.prefix_of_prefix_length_le (List.isPrefixOf_iff_prefix.mp hgrow)
                (List.prefix_append (u :: t) more) hlength))
            rw [if_neg hsame]
            exact ih h

theorem findFrom_shift (t : Text) (start : Option Nat) (index k : Nat) :
    findFrom (start.map (· + k)) (index + k) t = (findFrom start index t).map fun found => (found.1 + k, found.2 + k) := by
  induction t generalizing start index with
  | nil => rfl
  | cons u t ih =>
    have hnext : index + k + 1 = index + 1 + k := by omega
    rw [findFrom_cons, findFrom_cons]
    split
    · rw [← ih, hnext]
      cases start <;> rfl
    · split
      · rw [← ih, hnext]
      · cases start with
        | none => rw [← ih, hnext]; rfl
        | some s =>
          dsimp only [Option.map_some]
          split
          · rw [Option.map_some, show index + k + 3 = index + 3 + k by omega]
          · rw [← ih, hnext]; rfl

/-- A character that stands in no scheme and not in its end starts the search anew. -/
theorem findFrom_anew {u : UInt16} (hu : inScheme u = false) (hend : u ∉ schemeEnd) (t more : Text) (start : Option Nat)
    (index : Nat) : findFrom start index (t ++ u :: more) =
      (findFrom start index t).or (findFrom none (index + t.length + 1) more) := by
  have hprefix : ∀ t : Text, schemeEnd.isPrefixOf (t ++ u :: more) = schemeEnd.isPrefixOf t := fun t => by
    rw [Bool.eq_iff_iff, List.isPrefixOf_iff_prefix, List.isPrefixOf_iff_prefix, Lib.prefix_append_cons hend]
  rw [inScheme, Bool.or_eq_false_iff] at hu
  induction t generalizing start index with
  | nil =>
    rw [List.nil_append, findFrom_cons, if_neg (Bool.eq_false_iff.mp hu.1), if_neg (Bool.eq_false_iff.mp hu.2)]
    cases start with
    | none => rfl
    | some s =>
      have hno : schemeEnd.isPrefixOf (u :: more) = false := hprefix []
      dsimp only
      rw [hno]
      rfl
  | cons v t ih =>
    have hnext : index + (v :: t).length + 1 = index + 1 + t.length + 1 := by rw [List.length_cons]; omega
    rw [List.cons_append, findFrom_cons, findFrom_cons, hnext]
    split
    · exact ih _ _
    · split
      · exact ih _ _
      · cases start with
        | none => exact ih _ _
        | some s =>
          have hsame : schemeEnd.isPrefixOf (v :: (t ++ u :: more)) = schemeEnd.isPrefixOf (v :: t) := hprefix (v :: t)
          dsimp only
          rw [hsame]
          split
          · rfl
          · exact ih _ _

theorem findUrlScheme_anew {u : UInt16} (hu : inScheme u = false) (hend : u ∉ schemeEnd) (t more : Text) :
    findUrlScheme (t ++ u :: more) = (findUrlScheme t).or
      ((findUrlScheme more).map fun found => (found.1 + (t.length + 1), found.2 + (t.length + 1))) := by
  have hshift := findFrom_shift more none 0 (t.length + 1)
  rw [Option.map_none, Nat.zero_add] at hshift
  rw [findUrlScheme, findFrom_anew hu hend, Nat.zero_add, hshift]
  rfl

theorem findUrlScheme_eq_none {t : Text} (h : 0x2f ∉ t) : findUrlScheme t = none := by
  cases hfound : findUrlScheme t with
  | none => rfl
  | some found =>
    obtain ⟨w, s, rest, rfl, -⟩ := findUrlScheme_spec (b := found.2) hfound
    exact absurd (by simp [schemeEnd]) h

/-! ## What stands in front -/

/-- A userinfo with its `@`: it ends no word and no authority. -/
structure IsLead (lead : Text) : Prop where
  ends : ∃ c, lead = c ++ [0x40]
  plain : ∀ u ∈ lead, isDelimiter u = false ∧ isSlash u = false

section Lead

variable {lead : Text} (hlead : IsLead lead) (rest : Text)

include hlead

theorem findUrlScheme_lead : findUrlScheme (lead ++ rest) =
    (findUrlScheme rest).map fun found => (found.1 + lead.length, found.2 + lead.length) := by
  obtain ⟨c, rfl⟩ := hlead.ends
  have hno : 0x2f ∉ c := fun hmem => by
    have hslash := (hlead.plain 0x2f (List.mem_append_left _ hmem)).2
    exact absurd hslash (by decide)
  rw [List.append_assoc, List.singleton_append, findUrlScheme_anew (by decide) (by decide), findUrlScheme_eq_none hno,
    Option.none_or, List.length_append, List.length_singleton]

theorem findIdx_lead {p : UInt16 → Bool} (hp : p = isDelimiter ∨ p = isSlash) :
    (lead ++ rest).findIdx p = lead.length + rest.findIdx p := by
  refine findIdx_behind (fun u hu => ?_) rest
  rcases hp with rfl | rfl
  · exact (hlead.plain u hu).1
  · exact (hlead.plain u hu).2

theorem authorityBound_lead (ordinaryAuthority : Bool) :
    authorityBound ordinaryAuthority (lead ++ rest) = lead.length + authorityBound ordinaryAuthority rest := by
  have hword := findIdx_lead hlead rest (.inl rfl)
  have hslash := findIdx_lead hlead rest (.inr rfl)
  have hnext : nextStart (lead ++ rest) = lead.length + nextStart rest := by
    rw [nextStart, findUrlScheme_lead hlead rest, nextStart]
    cases findUrlScheme rest with
    | none => exact List.length_append
    | some found => exact Nat.add_comm _ _
  rw [authorityBound, authorityBound]
  simp only [hword, hslash, hnext, Nat.add_min_add_left, List.take_length_add_append, List.drop_length_add_append]
  cases ordinaryAuthority with
  | false => rfl
  | true =>
    simp only [if_true]
    cases ((rest.take (min (rest.findIdx isSlash) (nextStart rest))).drop (rest.findIdx isDelimiter)).findIdx? isBoundary with
    | none => rfl
    | some boundary => exact Nat.add_assoc _ _ _

theorem addressLength_lead (ordinaryAuthority : Bool) :
    addressLength ordinaryAuthority (lead ++ rest) = lead.length + addressLength ordinaryAuthority rest := by
  obtain ⟨c, hc⟩ := hlead.ends
  have hword := findIdx_lead hlead rest (.inl rfl)
  have hslash := findIdx_lead hlead rest (.inr rfl)
  have hget : ∀ i, (lead ++ rest)[lead.length + i]? = rest[i]? := fun i => by
    rw [List.getElem?_append_right (Nat.le_add_right _ _), Nat.add_sub_cancel_left]
  have hcompare : lead.length + rest.findIdx isSlash < lead.length + rest.findIdx isDelimiter ↔
      rest.findIdx isSlash < rest.findIdx isDelimiter := by omega
  rw [addressLength, addressLength]
  simp only [hword, hslash, hget, authorityBound_lead hlead, List.take_length_add_append, hcompare]
  split
  · rfl
  · split
    · rfl
    · generalize rest.take (authorityBound ordinaryAuthority rest) = authority
      have hlast : lastIdx isAt (lead ++ authority) = some (c.length + throughLast isAt authority) := by
        rw [hc, List.append_assoc, List.singleton_append, lastIdx_lead (by decide)]
      have hlength : lead.length = c.length + 1 := by rw [hc, List.length_append, List.length_singleton]
      rw [hlast, throughLast]
      cases lastIdx isAt authority with
      | none =>
        dsimp only [Option.elim_none]
        rw [Nat.add_zero, ← hlength, List.drop_left]
      | some last =>
        have hnext : c.length + (last + 1) + 1 = lead.length + (last + 1) := by omega
        dsimp only [Option.elim_some]
        rw [hnext, List.drop_length_add_append, Nat.add_assoc]

end Lead

/-! ## What stands behind -/

theorem not_inScheme_of_isDelimiter {u : UInt16} (h : isDelimiter u = true) : inScheme u = false := by
  rw [Bool.eq_false_iff]
  intro hin
  simp only [isDelimiter, isBoundary, isTrimmed, isBracket, inScheme, isLetter, continuesScheme, Bool.or_eq_true,
    Bool.and_eq_true, decide_eq_true_eq, UInt16.le_iff_toNat_le, ← UInt16.toNat_inj, UInt16.reduceToNat] at h hin
  omega

theorem ne_of_isDelimiter {u v : UInt16} (h : isDelimiter u = true) (hv : isDelimiter v = false) : u ≠ v :=
  fun heq => absurd (heq ▸ h) (Bool.eq_false_iff.mp hv)

theorem delimiter_not_mem_schemeEnd {u : UInt16} (h : isDelimiter u = true) : u ∉ schemeEnd := by
  have hall : schemeEnd.all (! isDelimiter ·) = true := by decide
  intro hmem
  have hno := List.all_eq_true.mp hall u hmem
  rw [h] at hno
  cases hno

theorem isDelimiter_of_isBoundary {u : UInt16} (h : isBoundary u = true) : isDelimiter u = true := by
  rw [isDelimiter, h, Bool.true_or]

theorem authorityBound_le (ordinaryAuthority : Bool) (behind : Text) :
    authorityBound ordinaryAuthority behind ≤ min (behind.findIdx isSlash) (nextStart behind) := by
  rw [authorityBound]
  cases ordinaryAuthority with
  | false => exact le_rfl
  | true =>
    simp only [if_true]
    split
    · next boundary hfound =>
      obtain ⟨hlt, -⟩ := List.findIdx?_eq_some_iff_getElem.mp hfound
      rw [List.length_drop, List.length_take] at hlt
      omega
    · exact le_rfl

/-- An ordinary authority is searched up to the first white space or quote at most. -/
theorem authorityBound_le_of_boundary {front : Text} (h : ∃ u ∈ front, isBoundary u = true) (rest : Text) :
    authorityBound true (front ++ rest) ≤ front.length := by
  obtain ⟨before, u, after, rfl, -, hu, hbefore⟩ := findIdx_spec h
  have hword : (before ++ u :: after ++ rest).findIdx isDelimiter ≤ before.length := by
    have hmem : ∃ v ∈ before ++ [u], isDelimiter v = true :=
      ⟨u, List.mem_append_right _ List.mem_cons_self, isDelimiter_of_isBoundary hu⟩
    have hsplit : before ++ u :: after ++ rest = before ++ [u] ++ (after ++ rest) := by simp
    have hlt := List.findIdx_lt_length_of_exists hmem
    rw [hsplit, findIdx_in_front hmem]
    rw [List.length_append, List.length_singleton] at hlt
    omega
  have hle := authorityBound_le true (before ++ u :: after ++ rest)
  generalize hbehind : before ++ u :: after ++ rest = behind at *
  rw [authorityBound] at hle ⊢
  simp only [if_true] at hle ⊢
  generalize min (behind.findIdx isSlash) (nextStart behind) = bound at *
  rw [List.length_append, List.length_cons]
  by_cases hbound : bound ≤ before.length
  · exact hle.trans (hbound.trans (by omega))
  · -- The boundary is in reach, and the search ends at it or earlier.
    have hat : ((behind.take bound).drop (behind.findIdx isDelimiter))[before.length - behind.findIdx isDelimiter]? =
        some u := by
      rw [List.getElem?_drop, Nat.add_sub_cancel' hword, List.getElem?_take_of_lt (by omega), ← hbehind,
        List.append_assoc, List.getElem?_append_right le_rfl, Nat.sub_self]
      rfl
    have hexists : ∃ v ∈ (behind.take bound).drop (behind.findIdx isDelimiter), isBoundary v = true :=
      ⟨u, List.mem_of_getElem? hat, hu⟩
    rw [List.findIdx?_eq_some_of_exists hexists]
    obtain ⟨hi, hget⟩ := List.getElem?_eq_some_iff.mp hat
    have hfirst : ((behind.take bound).drop (behind.findIdx isDelimiter)).findIdx isBoundary ≤
        before.length - behind.findIdx isDelimiter := by
      by_contra hlt
      have hno := List.not_of_lt_findIdx (Nat.not_le.mp hlt)
      rw [hget, hu] at hno
      cases hno
    dsimp only
    omega

/-- The `://` of the word is one of the scanner's: it finds an address in the word. -/
def HasScheme (word : Text) : Prop := ∃ start, findUrlScheme (word ++ schemeEnd) = some (start, word.length + 3)

theorem HasScheme.start_le {word : Text} (h : HasScheme word) :
    ∃ start ≤ word.length, findUrlScheme (word ++ schemeEnd) = some (start, word.length + 3) := by
  obtain ⟨start, h⟩ := h
  obtain ⟨w, s, rest, -, -, hw, hend⟩ := findUrlScheme_spec h
  exact ⟨start, by omega, h⟩

section Local

variable {y word : Text} {d : UInt16} (hd : isDelimiter d = true) (hscheme : HasScheme word)

include hd hscheme

theorem nextStart_local : ∃ n ≤ y.length + 1 + word.length,
    ∀ z, nextStart (y ++ d :: (word ++ (schemeEnd ++ z))) = n := by
  obtain ⟨start, hstart, hfind⟩ := hscheme.start_le
  have hfound : ∀ z, findUrlScheme (y ++ d :: (word ++ (schemeEnd ++ z))) = (findUrlScheme y).or
      (some (start + (y.length + 1), word.length + 3 + (y.length + 1))) := by
    intro z
    rw [findUrlScheme_anew (not_inScheme_of_isDelimiter hd) (delimiter_not_mem_schemeEnd hd), ← List.append_assoc,
      findUrlScheme, findUrlScheme, findFrom_append hfind]
    rfl
  cases hy : findUrlScheme y with
  | some found =>
    refine ⟨found.1, ?_, fun z => by rw [nextStart, hfound, hy]; rfl⟩
    obtain ⟨w, s, rest, rfl, -, hw, -⟩ := findUrlScheme_spec (b := found.2) hy
    rw [List.length_append]
    omega
  | none => exact ⟨start + (y.length + 1), by omega, fun z => by rw [nextStart, hfound, hy]; rfl⟩

theorem authorityBound_local (ordinaryAuthority : Bool) : ∃ bound ≤ y.length + 1 + word.length,
    ∀ z, authorityBound ordinaryAuthority (y ++ d :: (word ++ (schemeEnd ++ z))) = bound := by
  obtain ⟨n, hn, hnext⟩ := nextStart_local (y := y) hd hscheme
  refine ⟨authorityBound ordinaryAuthority (y ++ d :: (word ++ (schemeEnd ++ []))), ?_, fun z => ?_⟩
  · refine (authorityBound_le ordinaryAuthority _).trans ((Nat.min_le_right _ _).trans ?_)
    rw [hnext]
    exact hn
  · have hword : ∀ z, (y ++ d :: (word ++ (schemeEnd ++ z))).findIdx isDelimiter = (y ++ [d]).findIdx isDelimiter := by
      intro z
      rw [← List.singleton_append, ← List.append_assoc]
      exact findIdx_in_front ⟨d, by simp, hd⟩ _
    have hslash : ∀ z, (y ++ d :: (word ++ (schemeEnd ++ z))).findIdx isSlash =
        (y ++ d :: (word ++ schemeEnd)).findIdx isSlash := by
      intro z
      have hsplit : y ++ d :: (word ++ (schemeEnd ++ z)) = y ++ d :: (word ++ schemeEnd) ++ z := by simp
      rw [hsplit]
      exact findIdx_in_front ⟨0x2f, by simp [schemeEnd], by decide⟩ z
    have htake : ∀ z k, (y ++ d :: (word ++ (schemeEnd ++ z))).take (min k n) =
        (y ++ d :: word).take (min k n) := by
      intro z k
      have hsplit : y ++ d :: (word ++ (schemeEnd ++ z)) = y ++ d :: word ++ (schemeEnd ++ z) := by simp
      rw [hsplit]
      refine List.take_append_of_le_length ?_
      rw [List.length_append, List.length_cons]
      omega
    rw [authorityBound, authorityBound]
    simp only [hword, hslash, hnext, htake]

/-- Where the last `@` of the authority stands, if the first one of the word is out of its reach. -/
theorem lastIdx_local {ordinaryAuthority : Bool}
    (hat : ∀ w w', word = w ++ 0x40 :: w' → 0x40 ∉ w →
      0x2f ∈ y ++ d :: w ∨ ordinaryAuthority = true ∧ ∃ u ∈ y ++ [d], isBoundary u = true) {z : Text} {last : Nat}
    (h : lastIdx isAt ((y ++ d :: (word ++ (schemeEnd ++ z))).take
      (authorityBound ordinaryAuthority (y ++ d :: (word ++ (schemeEnd ++ z))))) = some last) : last < y.length := by
  have hreach : ∃ w w', word = w ++ w' ∧ 0x40 ∉ w ∧
      authorityBound ordinaryAuthority (y ++ d :: (word ++ (schemeEnd ++ z))) ≤ (y ++ d :: w).length := by
    have hlength : ∀ w : Text, (y ++ d :: w).length = y.length + 1 + w.length := fun w => by
      rw [List.length_append, List.length_cons]
      omega
    by_cases hmem : 0x40 ∈ word
    · obtain ⟨w, w', rfl, hno⟩ := List.eq_append_cons_of_mem hmem
      refine ⟨w, 0x40 :: w', rfl, hno, ?_⟩
      rcases hat w w' rfl hno with hslash | ⟨rfl, hboundary⟩
      · have hsplit : y ++ d :: (w ++ 0x40 :: w' ++ (schemeEnd ++ z)) = y ++ d :: w ++ (0x40 :: w' ++ (schemeEnd ++ z)) := by
          simp
        have hexists : ∃ u ∈ y ++ d :: w, isSlash u = true := ⟨0x2f, hslash, by decide⟩
        refine (authorityBound_le _ _).trans ((Nat.min_le_left _ _).trans ?_)
        rw [hsplit, findIdx_in_front hexists]
        exact (List.findIdx_lt_length_of_exists hexists).le
      · have hsplit : y ++ d :: (w ++ 0x40 :: w' ++ (schemeEnd ++ z)) = y ++ [d] ++ (w ++ 0x40 :: w' ++ (schemeEnd ++ z)) := by
          simp
        rw [hsplit]
        refine (authorityBound_le_of_boundary hboundary _).trans ?_
        rw [List.length_append, List.length_append, List.length_singleton, List.length_cons]
        omega
    · obtain ⟨bound, hbound, hsame⟩ := authorityBound_local (y := y) hd hscheme ordinaryAuthority
      refine ⟨word, [], (List.append_nil _).symm, hmem, ?_⟩
      rw [hsame, hlength]
      exact hbound
  obtain ⟨w, w', rfl, hno, hle⟩ := hreach
  have hsplit : y ++ d :: (w ++ w' ++ (schemeEnd ++ z)) = y ++ d :: w ++ (w' ++ (schemeEnd ++ z)) := by simp
  rw [hsplit] at h hle
  rw [List.take_append_of_le_length hle] at h
  obtain ⟨front, x, rest, hfront, rfl, hx, -⟩ := lastIdx_spec h
  have hget : (y ++ d :: w)[front.length]? = some x := by
    have hsome : (front ++ x :: rest)[front.length]? = some x := by
      rw [List.getElem?_append_right le_rfl, Nat.sub_self]
      rfl
    rw [← hfront, List.getElem?_take] at hsome
    split at hsome
    · exact hsome
    · cases hsome
  have hself : x = 0x40 := of_decide_eq_true hx
  by_contra hge
  rw [List.getElem?_append_right (by omega)] at hget
  cases hk : front.length - y.length with
  | zero =>
    rw [hk] at hget
    exact ne_of_isDelimiter hd (by decide) (hself ▸ Option.some.inj hget)
  | succ k =>
    rw [hk] at hget
    exact hno (hself ▸ List.mem_of_getElem? hget)

theorem addressLength_local {ordinaryAuthority : Bool}
    (hat : ∀ w w', word = w ++ 0x40 :: w' → 0x40 ∉ w →
      0x2f ∈ y ++ d :: w ∨ ordinaryAuthority = true ∧ ∃ u ∈ y ++ [d], isBoundary u = true) :
    ∃ front u rest, y ++ [d] = front ++ u :: rest ∧ isDelimiter u = true ∧
      ∀ z, addressLength ordinaryAuthority (y ++ d :: (word ++ (schemeEnd ++ z))) = front.length := by
  obtain ⟨bound, hle, hbound⟩ := authorityBound_local (y := y) hd hscheme ordinaryAuthority
  have hdelimiter : ∃ u ∈ y ++ [d], isDelimiter u = true := ⟨d, by simp, hd⟩
  have hsplit : ∀ z, y ++ d :: (word ++ (schemeEnd ++ z)) = y ++ [d] ++ (word ++ (schemeEnd ++ z)) := fun z => by simp
  have hword : ∀ z, (y ++ d :: (word ++ (schemeEnd ++ z))).findIdx isDelimiter = (y ++ [d]).findIdx isDelimiter :=
    fun z => by rw [hsplit, findIdx_in_front hdelimiter]
  obtain ⟨front, u, rest, hy, hfront, hu, -⟩ := findIdx_spec hdelimiter
  have hget : ∀ z, (y ++ d :: (word ++ (schemeEnd ++ z)))[(y ++ [d]).findIdx isDelimiter]? = some u := by
    intro z
    rw [hsplit, ← hfront, hy, List.append_assoc, List.getElem?_append_right le_rfl, Nat.sub_self]
    rfl
  have hslash : ∀ z, (y ++ d :: (word ++ (schemeEnd ++ z))).findIdx isSlash =
      (y ++ d :: (word ++ schemeEnd)).findIdx isSlash := by
    intro z
    have hgroup : y ++ d :: (word ++ (schemeEnd ++ z)) = y ++ d :: (word ++ schemeEnd) ++ z := by simp
    rw [hgroup]
    exact findIdx_in_front ⟨0x2f, by simp [schemeEnd], by decide⟩ z
  have htake : ∀ z, (y ++ d :: (word ++ (schemeEnd ++ z))).take bound = (y ++ d :: word).take bound := by
    intro z
    have hgroup : y ++ d :: (word ++ (schemeEnd ++ z)) = y ++ d :: word ++ (schemeEnd ++ z) := by simp
    rw [hgroup]
    refine List.take_append_of_le_length ?_
    rw [List.length_append, List.length_cons]
    omega
  have hshort : ∀ last, lastIdx isAt ((y ++ d :: word).take bound) = some last → last < y.length := by
    intro last h
    refine lastIdx_local hd hscheme (z := []) hat ?_
    rw [hbound, htake, h]
  have hlength : ∀ z, addressLength ordinaryAuthority (y ++ d :: (word ++ (schemeEnd ++ z))) =
      if (y ++ d :: (word ++ schemeEnd)).findIdx isSlash < (y ++ [d]).findIdx isDelimiter then front.length
      else if (ordinaryAuthority && ! isBracket u) = true then front.length
      else
        (lastIdx isAt ((y ++ d :: word).take bound)).elim front.length fun last =>
          last + 1 + ((y ++ d :: (word ++ (schemeEnd ++ z))).drop (last + 1)).findIdx isDelimiter := by
    intro z
    rw [addressLength]
    simp only [hword, hslash, hget, hbound, htake, hfront, Option.any_some]
    cases lastIdx isAt ((y ++ d :: word).take bound) <;> rfl
  by_cases hfirst : (y ++ d :: (word ++ schemeEnd)).findIdx isSlash < (y ++ [d]).findIdx isDelimiter
  · exact ⟨front, u, rest, hy, hu, fun z => by rw [hlength, if_pos hfirst]⟩
  · by_cases hordinary : (ordinaryAuthority && ! isBracket u) = true
    · exact ⟨front, u, rest, hy, hu, fun z => by rw [hlength, if_neg hfirst, if_pos hordinary]⟩
    · cases hlast : lastIdx isAt ((y ++ d :: word).take bound) with
      | none => exact ⟨front, u, rest, hy, hu, fun z => by rw [hlength, if_neg hfirst, if_neg hordinary, hlast, Option.elim_none]⟩
      | some last =>
        -- The address goes on behind its `@` to the next delimiter, which is `d` at the latest.
        have hlt := hshort last hlast
        have hdrop : ∀ more, (y ++ d :: more).drop (last + 1) = y.drop (last + 1) ++ d :: more := fun more =>
          List.drop_append_of_le_length (by omega)
        obtain ⟨front', u', rest', hy', hfront', hu', -⟩ :=
          findIdx_spec (a := y.drop (last + 1) ++ [d]) ⟨d, by simp, hd⟩
        refine ⟨y.take (last + 1) ++ front', u', rest', ?_, hu', fun z => ?_⟩
        · rw [List.append_assoc, ← hy', ← List.append_assoc, List.take_append_drop]
        · have hgroup : y.drop (last + 1) ++ d :: (word ++ (schemeEnd ++ z)) =
              y.drop (last + 1) ++ [d] ++ (word ++ (schemeEnd ++ z)) := by simp
          rw [hlength, if_neg hfirst, if_neg hordinary, hlast, Option.elim_some, hdrop, hgroup, findIdx_in_front ⟨d, by simp, hd⟩, ← hfront', List.length_append, List.length_take,
            Nat.min_eq_left (by omega)]

end Local

end Haive.Schemas

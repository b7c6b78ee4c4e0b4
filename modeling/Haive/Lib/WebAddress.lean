import Haive.Lib.PercentText
import Mathlib.Data.List.Infix

/-!
# Web addresses

How an `https` address is read: the authority, the segments of the path with the dot segments taken
out, the query and the fragment. What a host is canonicalised to is a parameter. Where the parts hold no
separator of their own and no segment is a dot segment, each part is read as it is (`readHttps_eq`).
-/

namespace Lib.Web

open Lib.Units

/-- A host as it is written back, its port with the colon in front. -/
structure Host where
  hostname : List UInt16
  port : List UInt16

structure Address where
  origin : List UInt16
  hostname : List UInt16
  path : List (List UInt16)
  query : Option (List UInt16)
  fragment : Option (List UInt16)

namespace Address

def pathname (a : Address) : List UInt16 := a.path.flatMap (0x2f :: ·)

def href (a : Address) : List UInt16 :=
  a.origin ++ (a.pathname ++ ((a.query.elim [] (0x3f :: ·)) ++ a.fragment.elim [] (0x23 :: ·)))

end Address

def isSlash (u : UInt16) : Bool := u = 0x2f || u = 0x5c

def endsAuthority (u : UInt16) : Bool := isSlash u || u = 0x3f || u = 0x23

def endsPath (u : UInt16) : Bool := u = 0x3f || u = 0x23

def isGraphic (c : Nat) : Bool := 0x21 ≤ c && c ≤ 0x7e

def isPathKept (c : Nat) : Bool :=
  isGraphic c && ! [0x22, 0x23, 0x3c, 0x3e, 0x3f, 0x5e, 0x60, 0x7b, 0x7d].contains c

def isQueryKept (c : Nat) : Bool := isGraphic c && ! [0x22, 0x23, 0x27, 0x3c, 0x3e].contains c

def isFragmentKept (c : Nat) : Bool := isGraphic c && ! [0x22, 0x3c, 0x3e, 0x60].contains c

/-! ## Reading -/

/-- The spellings of one dot. -/
def dots : List (List UInt16) := ["." , "%2e", "%2E"].map units

def doubleDots : List (List UInt16) := dots.flatMap fun a => dots.map (a ++ ·)

def dotSegments : List (List UInt16) := dots ++ doubleDots

/-- One segment behind the path so far; `last`: no other one stands behind it. -/
def addSegment (last : Bool) (path : List (List UInt16)) (segment : List UInt16) : List (List UInt16) :=
  if doubleDots.contains segment then path.dropLast ++ (if last then [[]] else [])
  else if dots.contains segment then path ++ (if last then [[]] else [])
  else path ++ [segment]

def resolve : List (List UInt16) → List (List UInt16) → List (List UInt16)
  | path, [] => path
  | path, [segment] => addSegment true path segment
  | path, segment :: next :: rest => resolve (addSegment false path segment) (next :: rest)

def rawSegments : List UInt16 → List (List UInt16)
  | [] => [[]]
  | u :: path => if isSlash u then path.splitOnP isSlash else (u :: path).splitOnP isSlash

def readPath (path : List UInt16) : List (List UInt16) :=
  resolve [] ((rawSegments path).map (percentEncode isPathKept))

/-- Reads what stands behind `https://`; `host` reads an authority. -/
def readHttps (host : List UInt16 → Option Host) (text : List UInt16) : Option Address :=
  let clean := (text.rdropWhile (· ≤ 0x20)).filter fun u => ! [9, 10, 13].contains u
  let rest := clean.dropWhile isSlash
  let authority := rest.takeWhile (! endsAuthority ·)
  let tail := rest.dropWhile (! endsAuthority ·)
  let behind := tail.dropWhile (! endsPath ·)
  let query := match behind with
    | 0x3f :: query => some (percentEncode isQueryKept (query.takeWhile (· ≠ 0x23)))
    | _ => none
  let fragment := match behind.dropWhile (· ≠ 0x23) with
    | _ :: fragment => some (percentEncode isFragmentKept fragment)
    | [] => none
  if authority = [] then none
  else (host authority).map fun h =>
    ⟨units "https://" ++ (h.hostname ++ h.port), h.hostname, readPath (tail.takeWhile (! endsPath ·)), query, fragment⟩

/-! ## Reading plain parts -/

theorem resolve_of_not_dots {segments : List (List UInt16)} (h : ∀ segment ∈ segments, segment ∉ dotSegments)
    (path : List (List UInt16)) : resolve path segments = path ++ segments := by
  have hadd : ∀ segment ∉ dotSegments, ∀ last path, addSegment last path segment = path ++ [segment] := by
    intro segment hnot last path
    rw [dotSegments, List.mem_append, not_or] at hnot
    rw [addSegment, if_neg (by simpa using hnot.2), if_neg (by simpa using hnot.1)]
  induction path, segments using resolve.induct with
  | case1 path => exact (List.append_nil path).symm
  | case2 path segment => exact hadd segment (h segment List.mem_cons_self) true path
  | case3 path segment next rest ih =>
    obtain ⟨hsegment, hrest⟩ := List.forall_mem_cons.mp h
    rw [hadd segment hsegment] at ih
    rw [resolve, hadd segment hsegment, ih hrest, List.append_assoc, List.singleton_append]

/-- A query as it stands in the address. -/
def queryText (query : Option (List UInt16)) : List UInt16 := query.elim [] (0x3f :: ·)

theorem takeWhile_append_of_head {α : Type} {p : α → Bool} {a b : List α} (ha : ∀ x ∈ a, p x = true)
    (hb : ∀ x, b.head? = some x → p x = false) : (a ++ b).takeWhile p = a ∧ (a ++ b).dropWhile p = b := by
  rw [List.takeWhile_append_of_pos ha, List.dropWhile_append_of_pos ha]
  cases b with
  | nil => exact ⟨List.append_nil a, rfl⟩
  | cons x b =>
    have hx := hb x rfl
    rw [List.takeWhile_cons_of_neg (Bool.eq_false_iff.mp hx), List.dropWhile_cons_of_neg (Bool.eq_false_iff.mp hx)]
    exact ⟨List.append_nil a, rfl⟩

theorem readHttps_eq (host : List UInt16 → Option Host) {authority path : List UInt16} {query : Option (List UInt16)}
    (hne : authority ≠ []) (hauthority : ∀ u ∈ authority, endsAuthority u = false)
    (hpath : ∀ u ∈ path, endsPath u = false) (hstart : path = [] ∨ path.head? = some 0x2f)
    (hquery : ∀ q, query = some q → 0x23 ∉ q) (hclean : ∀ u ∈ authority ++ (path ++ queryText query), 0x20 < u) :
    readHttps host (authority ++ (path ++ queryText query)) = (host authority).map fun h =>
      ⟨units "https://" ++ (h.hostname ++ h.port), h.hostname, readPath path, query.map (percentEncode isQueryKept),
        none⟩ := by
  have htrim : (authority ++ (path ++ queryText query)).rdropWhile (· ≤ 0x20) =
      authority ++ (path ++ queryText query) := by
    refine List.rdropWhile_eq_self_iff.mpr fun hne hle => ?_
    exact absurd (hclean _ (List.getLast_mem hne)) (UInt16.not_lt.mpr (of_decide_eq_true hle))
  have hfilter : (authority ++ (path ++ queryText query)).filter (fun u => ! [9, 10, 13].contains u) =
      authority ++ (path ++ queryText query) := by
    refine List.filter_eq_self.mpr fun u hu => ?_
    have hlt := hclean u hu
    rw [Bool.not_eq_true', List.contains_eq_mem, decide_eq_false_iff_not]
    intro hmem
    simp only [List.mem_cons, List.not_mem_nil, or_false] at hmem
    rcases hmem with rfl | rfl | rfl <;> exact absurd hlt (by decide)
  have hslashes : (authority ++ (path ++ queryText query)).dropWhile isSlash =
      authority ++ (path ++ queryText query) := by
    cases authority with
    | nil => exact absurd rfl hne
    | cons u authority =>
      have hu := hauthority u List.mem_cons_self
      rw [endsAuthority, Bool.or_assoc, Bool.or_eq_false_iff] at hu
      exact List.dropWhile_cons_of_neg (Bool.eq_false_iff.mp hu.1)
  have hhead : ∀ u, (queryText query).head? = some u → u = 0x3f := by
    intro u hu
    cases query with
    | none => cases hu
    | some q => exact (Option.some.inj hu).symm
  have hbehind : ∀ u, (path ++ queryText query).head? = some u → (! endsAuthority u) = false := by
    intro u hu
    rcases hstart with rfl | hstart
    · rw [hhead u hu]
      rfl
    · rw [List.head?_append, hstart, Option.some_or, Option.some.injEq] at hu
      rw [← hu]
      rfl
  obtain ⟨htakeAuthority, hdropAuthority⟩ := takeWhile_append_of_head
    (fun u hu => by rw [hauthority u hu]; rfl : ∀ u ∈ authority, (! endsAuthority u) = true) hbehind
  obtain ⟨htakePath, hdropPath⟩ := takeWhile_append_of_head
    (fun u hu => by rw [hpath u hu]; rfl : ∀ u ∈ path, (! endsPath u) = true)
    (fun u hu => by rw [hhead u hu]; rfl : ∀ u, (queryText query).head? = some u → (! endsPath u) = false)
  rw [readHttps, htrim, hfilter]
  simp only [hslashes, htakeAuthority, hdropAuthority, htakePath, hdropPath, if_neg hne]
  refine congrArg (fun f => (host authority).map f) (funext fun h => ?_)
  cases query with
  | none => rfl
  | some q =>
    have hq : ∀ u ∈ q, decide (u ≠ 0x23) = true := fun u hu => decide_eq_true fun heq => hquery q rfl (heq ▸ hu)
    have htake : q.takeWhile (fun u => decide (u ≠ 0x23)) = q := List.takeWhile_eq_self_iff.mpr hq
    have hdrop : (0x3f :: q).dropWhile (fun u => decide (u ≠ 0x23)) = [] :=
      List.dropWhile_eq_nil_iff.mpr (List.forall_mem_cons.mpr ⟨by decide, hq⟩)
    simp only [queryText, Option.elim_some, htake, hdrop, Option.map_some]

/-! ## Dot segments -/

/-- An escape in the text is one of a dot. -/
def Dotted (t : List UInt16) : Prop :=
  ∀ s, s <:+ t → s.head? = some 0x25 → s[1]? = some 0x32 ∧ (s[2]? = some 0x65 ∨ s[2]? = some 0x45)

theorem dotted_of_mem {t : List UInt16} (h : t ∈ dotSegments) : Dotted t := by
  have hall : ∀ t ∈ dotSegments, ∀ s ∈ t.tails, s.head? = some 0x25 →
      s[1]? = some 0x32 ∧ (s[2]? = some 0x65 ∨ s[2]? = some 0x45) := by decide
  exact fun s hs => hall t h s ((List.mem_tails s t).mpr hs)

theorem Dotted.of_suffix {s t : List UInt16} (h : Dotted t) (hs : s <:+ t) : Dotted s :=
  fun r hr => h r (hr.trans hs)

section Keep

variable {keep : Nat → Bool} (hplain : ∀ c, keep c = true → c < 0x80) (hdot : keep 0x2e = true)

include hdot

/-- A dot is not escaped, so that nothing else stands in such a text escaped. -/
theorem keep_of_dotted {c : Nat} (hc : c < 0x110000) {t : List UInt16} (h : Dotted (encodePoint keep c ++ t)) :
    keep c = true := by
  by_contra hno
  obtain ⟨b, rest, heq, hb, hsame⟩ := escapes_eq_cons c
  have hlt := lt_of_mem_utf8 hc b hb
  rw [encodePoint, if_neg hno, heq] at h
  obtain ⟨hhigh, hlow⟩ := h _ List.suffix_rfl rfl
  have htwo : upperHex (b / 16) = upperHex 2 := Option.some.inj hhigh
  have hlast : upperHex (b % 16) = 0x65 ∨ upperHex (b % 16) = 0x45 :=
    hlow.imp (fun h => Option.some.inj h) fun h => Option.some.inj h
  have hfourteen : ∀ n < 16, upperHex n = 0x65 ∨ upperHex n = 0x45 → n = 14 := by decide
  have h₁ := upperHex_injective _ (by omega) _ (by decide) htwo
  have h₂ := hfourteen _ (by omega) hlast
  have hfull : b = 0x2e := by omega
  have hself := hsame (by omega)
  exact hno (hself ▸ hfull ▸ hdot)

include hplain

/-- What of a text ends up in a dot segment stood in it as it is. -/
theorem percentEncode_of_dotted {q : List UInt16} {t : List UInt16} (h : Dotted (percentEncode keep q ++ t)) :
    percentEncode keep q = q := by
  have hunit : ∀ {u : UInt16}, keep (unitPoint u) = true → isSurrogate u = false ∧ keep u.toNat = true := by
    intro u hkeep
    have hlt := hplain _ hkeep
    rw [unitPoint] at hlt hkeep
    split at hlt
    · omega
    · next hu =>
      rw [if_neg hu] at hkeep
      exact ⟨Bool.eq_false_iff.mpr hu, hkeep⟩
  induction q using codePoints.induct with
  | case1 => rfl
  | case2 u =>
    have hkeep := keep_of_dotted hdot ((unitPoint_lt u).trans (by omega)) (t := t)
      (by simpa only [percentEncode, codePoints, List.flatMap_singleton] using h)
    obtain ⟨hu, hkeep⟩ := hunit hkeep
    rw [percentEncode_cons hu, encodePoint_of_keep hkeep, percentEncode_nil, List.append_nil]
  | case3 u v rest hpair ih =>
    have hcons : percentEncode keep (u :: v :: rest) = encodePoint keep (pairPoint u v) ++ percentEncode keep rest := by
      rw [percentEncode, codePoints_cons_cons, if_pos hpair, List.flatMap_cons]
      rfl
    rw [Bool.and_eq_true] at hpair
    have hbounds := pairPoint_bounds hpair.1 hpair.2
    rw [hcons, List.append_assoc] at h
    have hlt := hplain _ (keep_of_dotted hdot hbounds.2 h)
    omega
  | case4 u v rest hpair ih =>
    have hcons : percentEncode keep (u :: v :: rest) = encodePoint keep (unitPoint u) ++ percentEncode keep (v :: rest) := by
      rw [percentEncode, codePoints_cons_cons, if_neg hpair, List.flatMap_cons]
      rfl
    rw [hcons, List.append_assoc] at h
    obtain ⟨hu, hkeep⟩ := hunit (keep_of_dotted hdot ((unitPoint_lt u).trans (by omega)) h)
    rw [hcons, unitPoint_of_not_surrogate hu, encodePoint_of_keep hkeep, ih (h.of_suffix (List.suffix_append _ _)),
      List.singleton_append]

end Keep

/-- The text does not end inside of what could become the escape of a dot. -/
def EndsWhole (q : List UInt16) : Prop := ¬ [0x25] <:+ q ∧ ¬ [0x25, 0x32] <:+ q

instance (q : List UInt16) : Decidable (EndsWhole q) := inferInstanceAs (Decidable (_ ∧ _))

theorem behind_whole : ∀ t ∈ dotSegments, ∀ q ∈ t.inits, EndsWhole q →
    (t.drop q.length).head? = none ∨ (t.drop q.length).head? = some 0x2e ∨ (t.drop q.length).head? = some 0x25 := by
  decide

theorem two_dots : ∀ t ∈ dotSegments, ∀ q ∈ t.inits, [0x2e, 0x2e] <+: t.drop q.length → (t.drop q.length).length = 2 := by
  decide

/-- Characters that stand escaped in a dot segment, behind a text that ends whole, are its dots. -/
theorem dots_of_encoded {keep : Nat → Bool} (hplain : ∀ c, keep c = true → c < 0x80) (hdot : keep 0x2e = true)
    (hpercent : keep 0x25 = false) {q r : List UInt16} {cs : List Nat} (hcs : ∀ c ∈ cs, c < 0x110000) (hne : cs ≠ [])
    (hq : EndsWhole q) (h : q ++ (cs.flatMap (encodePoint keep) ++ r) ∈ dotSegments) : cs = [0x2e] ∨ cs = [0x2e, 0x2e] := by
  have hfirst : ∀ {q : List UInt16} {c : Nat} {t : List UInt16}, EndsWhole q → c < 0x110000 →
      q ++ (encodePoint keep c ++ t) ∈ dotSegments → c = 0x2e := by
    intro q c t hq hc hmem
    have hkeep := keep_of_dotted hdot hc ((dotted_of_mem hmem).of_suffix (List.suffix_append q _))
    have hlt := hplain c hkeep
    have hunit : encodePoint keep c = [c.toUInt16] := if_pos hkeep
    have htoNat : c.toUInt16.toNat = c := UInt16.toNat_ofNat_of_lt' (hlt.trans (by decide))
    have hbehind := behind_whole _ hmem q ((List.mem_inits q _).mpr (List.prefix_append q _)) hq
    rw [List.drop_left, hunit, List.singleton_append, List.head?_cons] at hbehind
    rcases hbehind with hnone | hhead | hhead
    · cases hnone
    · rw [← htoNat, Option.some.inj hhead]
      rfl
    · rw [← htoNat, Option.some.inj hhead, show UInt16.toNat 0x25 = 0x25 from rfl, hpercent] at hkeep
      cases hkeep
  have hunit : encodePoint keep 0x2e = [0x2e] := if_pos hdot
  cases cs with
  | nil => exact absurd rfl hne
  | cons c cs =>
    obtain ⟨hc, hrest⟩ := List.forall_mem_cons.mp hcs
    rw [List.flatMap_cons, List.append_assoc] at h
    obtain rfl := hfirst hq hc h
    cases cs with
    | nil => exact .inl rfl
    | cons c' cs =>
      obtain ⟨hc', -⟩ := List.forall_mem_cons.mp hrest
      rw [hunit, List.flatMap_cons, List.append_assoc] at h
      have hwhole : EndsWhole (q ++ [0x2e]) := by
        constructor <;> rintro ⟨front, hfront⟩ <;>
          exact absurd (congrArg List.getLast? hfront) (by simp)
      have hnext : q ++ [0x2e] ++ (encodePoint keep c' ++ (cs.flatMap (encodePoint keep) ++ r)) ∈ dotSegments := by
        rwa [List.append_assoc]
      obtain rfl := hfirst hwhole hc' hnext
      have htwo := two_dots _ h q ((List.mem_inits q _).mpr (List.prefix_append q _))
      rw [List.drop_left, hunit] at htwo
      have hlength := htwo (List.prefix_append [0x2e, 0x2e] _)
      have hnil : cs.flatMap (encodePoint keep) ++ r = [] := List.length_eq_zero_iff.mp (by simpa using hlength)
      cases cs with
      | nil => exact .inr rfl
      | cons c'' cs =>
        rw [List.flatMap_cons, List.append_assoc] at hnil
        exact absurd (List.append_eq_nil_iff.mp hnil).1 (encodePoint_ne_nil c'')

/-! ## Splitting -/

theorem splitOnP_append {α : Type} {p : α → Bool} {w : List α} (h : ∀ x ∈ w, p x = false) (t : List α) :
    (w ++ t).splitOnP p = (t.splitOnP p).modifyHead (w ++ ·) := by
  induction w with
  | nil =>
    show t.splitOnP p = (t.splitOnP p).modifyHead id
    cases t.splitOnP p <;> rfl
  | cons x w ih =>
    obtain ⟨hx, hw⟩ := List.forall_mem_cons.mp h
    rw [List.cons_append, List.splitOnP_cons_eq_if_modifyHead, if_neg (Bool.eq_false_iff.mp hx), ih hw]
    cases t.splitOnP p <;> rfl

/-- A list whose elements are written as stretches is split where the stretches are. -/
theorem splitOnP_flatMap {α β : Type} {p : β → Bool} {q : α → Bool} {f : α → List β} {l : List α}
    (h : ∀ x ∈ l, (∃ y, f x = [y] ∧ p y = q x) ∨ (q x = false ∧ ∀ y ∈ f x, p y = false)) :
    (l.flatMap f).splitOnP p = (l.splitOnP q).map (·.flatMap f) := by
  induction l with
  | nil => rfl
  | cons x l ih =>
    obtain ⟨hx, hl⟩ := List.forall_mem_cons.mp h
    rw [List.flatMap_cons, List.splitOnP_cons_eq_if_modifyHead]
    rcases hx with ⟨y, hy, hpq⟩ | ⟨hq, hp⟩
    · rw [hy, List.singleton_append, List.splitOnP_cons_eq_if_modifyHead, hpq, ih hl]
      split
      · rfl
      · cases l.splitOnP q with
        | nil => rfl
        | cons seg segs =>
          show (y :: seg.flatMap f) :: _ = (x :: seg).flatMap f :: _
          rw [List.flatMap_cons, hy]
          rfl
    · rw [splitOnP_append hp, ih hl, hq, if_neg Bool.false_ne_true]
      cases l.splitOnP q with
      | nil => rfl
      | cons seg segs => rfl

/-- The parts of a split list stand in it, the first one at its start. -/
theorem infix_of_mem_splitOnP {α : Type} {p : α → Bool} {l seg : List α} (h : seg ∈ l.splitOnP p) : seg <:+: l := by
  have hparts : ∃ first rest, l.splitOnP p = first :: rest ∧ first <+: l ∧ ∀ seg ∈ rest, seg <:+: l := by
    clear h
    induction l with
    | nil => exact ⟨[], [], rfl, List.prefix_rfl, nofun⟩
    | cons x l ih =>
      obtain ⟨first, rest, heq, hfirst, hrest⟩ := ih
      have hgrow : ∀ seg ∈ rest, seg <:+: x :: l := fun seg hseg => (hrest seg hseg).trans (List.suffix_cons x l).isInfix
      rw [List.splitOnP_cons_eq_if_modifyHead, heq]
      split
      · exact ⟨[], _, rfl, List.nil_prefix, List.forall_mem_cons.mpr
          ⟨hfirst.isInfix.trans (List.suffix_cons x l).isInfix, hgrow⟩⟩
      · exact ⟨_, rest, rfl, List.cons_prefix_cons.mpr ⟨rfl, hfirst⟩, hgrow⟩
  obtain ⟨first, rest, heq, hfirst, hrest⟩ := hparts
  rw [heq] at h
  rcases List.mem_cons.mp h with rfl | hmem
  · exact hfirst.isInfix
  · exact hrest seg hmem

/-! ## Joining -/

theorem cons_intercalate {α : Type} (sep : α) {items : List (List α)} (h : items ≠ []) :
    sep :: [sep].intercalate items = items.flatMap (sep :: ·) := by
  cases items with
  | nil => exact absurd rfl h
  | cons a items =>
    induction items generalizing a with
    | nil => simp [List.intercalate_singleton]
    | cons b items ih =>
      rw [List.intercalate_cons_cons, List.flatMap_cons, ← ih b (List.cons_ne_nil _ _), List.append_assoc,
        List.singleton_append, List.cons_append]

theorem mem_intercalate {α : Type} {sep x : α} {items : List (List α)} (h : x ∈ [sep].intercalate items) :
    x = sep ∨ ∃ a ∈ items, x ∈ a := by
  cases items with
  | nil => cases h
  | cons a items =>
    have hmem := List.mem_cons_of_mem sep h
    rw [cons_intercalate sep (List.cons_ne_nil a items), List.mem_flatMap] at hmem
    obtain ⟨b, hb, hx⟩ := hmem
    exact (List.mem_cons.mp hx).imp_right fun hx => ⟨b, hb, hx⟩

/-- Parts behind a separator each are told apart by it. -/
theorem flatMap_cons_injective {α : Type} [DecidableEq α] {sep : α} {l l' : List (List α)} (hl : ∀ a ∈ l, sep ∉ a)
    (hl' : ∀ a ∈ l', sep ∉ a) (h : l.flatMap (sep :: ·) = l'.flatMap (sep :: ·)) : l = l' := by
  cases l with
  | nil =>
    cases l' with
    | nil => rfl
    | cons a' l' => exact absurd h.symm (List.cons_ne_nil _ _)
  | cons a l =>
    cases l' with
    | nil => exact absurd h (List.cons_ne_nil _ _)
    | cons a' l' =>
      rw [← cons_intercalate sep (List.cons_ne_nil a l), ← cons_intercalate sep (List.cons_ne_nil a' l'),
        List.cons.injEq] at h
      rw [← List.splitOn_intercalate sep hl (List.cons_ne_nil a l), h.2,
        List.splitOn_intercalate sep hl' (List.cons_ne_nil a' l')]

theorem Address.parts_of_href {a b : Address} (h : a.href = b.href) (horigin : a.origin = b.origin)
    (hfragment : a.fragment = none) (hfragment' : b.fragment = none) (ha : 0x3f ∉ a.pathname) (hb : 0x3f ∉ b.pathname) :
    a.pathname = b.pathname ∧ a.query = b.query := by
  have hcut : ∀ {path : List UInt16} {query : Option (List UInt16)}, 0x3f ∉ path →
      (path ++ queryText query).takeWhile (fun u => decide (u ≠ 0x3f)) = path ∧
        (path ++ queryText query).dropWhile (fun u => decide (u ≠ 0x3f)) = queryText query := by
    intro path query hpath
    refine takeWhile_append_of_head (fun u hu => decide_eq_true fun heq : u = 0x3f => hpath (heq ▸ hu)) fun u hu => ?_
    cases query with
    | none => cases hu
    | some q => exact Option.some.inj hu ▸ rfl
  have htext : ∀ {a : Address}, a.fragment = none → a.href = a.origin ++ (a.pathname ++ queryText a.query) := by
    intro a hnone
    rw [href, hnone, Option.elim_none, List.append_nil]
    rfl
  rw [htext hfragment, htext hfragment', horigin] at h
  have hrest := List.append_cancel_left h
  have hpath := (@hcut _ a.query ha).1
  have hquery := (@hcut _ a.query ha).2
  rw [hrest, (hcut hb).1] at hpath
  rw [hrest, (hcut hb).2] at hquery
  refine ⟨hpath.symm, ?_⟩
  cases hqa : a.query <;> cases hqb : b.query <;> simp_all [queryText]

end Lib.Web

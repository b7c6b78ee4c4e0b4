import Haive.Modularity.CustomTools

/-!
# Addresses of custom tool calls

A call of an accepted tool fetches the template of the tool with every argument in its own place
(`customToolUrl_fills`), as long as the fixed text in front of a placeholder does not end in what could
become the escape of a dot. Where something between two placeholders can be in no value, the address
says what the arguments were.
-/

namespace Haive.Modularity

open Lib.Units Lib.Web

/-! ## Pieces -/

theorem slotAt_spec {t name : Text} (h : slotAt t = some name) :
    0x7b :: (name ++ [0x7d]) <+: t ∧ ∀ u ∈ name, u ≠ 0x7b ∧ u ≠ 0x7d := by
  cases t with
  | nil => cases h
  | cons u rest =>
    rw [slotAt] at h
    split at h
    · next hslot =>
      have hname := Option.some.inj h
      rw [hname, Bool.and_eq_true, decide_eq_true_eq, decide_eq_true_eq] at hslot
      obtain ⟨rfl, hclose⟩ := hslot
      obtain ⟨tail, rfl⟩ : name <+: rest := hname ▸ List.takeWhile_prefix _
      rw [List.drop_left] at hclose
      obtain ⟨tail', rfl⟩ := List.head?_eq_some_iff.mp hclose
      refine ⟨⟨tail', by rw [List.cons_append, List.append_assoc, List.singleton_append]⟩, fun u hu => ?_⟩
      rw [← hname] at hu
      have hplain := List.mem_takeWhile_imp hu
      rwa [Bool.and_eq_true, decide_eq_true_eq, decide_eq_true_eq] at hplain
    · cases h

theorem scanSlots_raw (skip : Nat) (t : Text) : (scanSlots skip t).flatMap PathPiece.raw = t.drop skip := by
  induction t generalizing skip with
  | nil => rw [scanSlots, List.drop_nil, List.flatMap_nil]
  | cons u rest ih =>
    cases skip with
    | succ skip => rw [scanSlots, ih, List.drop_succ_cons]
    | zero =>
      rw [scanSlots]
      split
      · next name hslot =>
        obtain ⟨tail, htail⟩ := (slotAt_spec hslot).1
        rw [List.cons_append, List.cons.injEq] at htail
        have hlength : (name ++ [0x7d]).length = name.length + 1 := List.length_append
        rw [List.flatMap_cons, ih, PathPiece.raw, ← htail.2, ← hlength, List.drop_left, List.drop_zero,
          List.cons_append, ← htail.1]
      · rw [List.flatMap_cons, ih]
        rfl

theorem pieces_raw (t : Text) : (pieces t).flatMap PathPiece.raw = t := scanSlots_raw 0 t

theorem mem_of_unit_mem {t : Text} {u : UInt16} (h : .unit u ∈ pieces t) : u ∈ t := by
  have hmem : u ∈ (pieces t).flatMap PathPiece.raw := List.mem_flatMap.mpr ⟨_, h, List.mem_singleton_self u⟩
  rwa [pieces_raw] at hmem

/-- A unit that opens no placeholder is a piece. -/
theorem pieces_cons {u : UInt16} (hu : u ≠ 0x7b) (t : Text) : pieces (u :: t) = .unit u :: pieces t := by
  have hnone : slotAt (u :: t) = none := by rw [slotAt, if_neg (by simp [hu])]
  rw [pieces, scanSlots, hnone]
  rfl

theorem mem_placeholdersIn {t name : Text} : name ∈ placeholdersIn t ↔ .slot name ∈ pieces t := by
  rw [placeholdersIn, List.mem_filterMap]
  constructor
  · rintro ⟨piece, hmem, hname⟩
    cases piece with
    | unit u => cases hname
    | slot own => exact Option.some.inj hname ▸ hmem
  · exact fun h => ⟨_, h, rfl⟩

/-! ## The parts of a URL -/

structure UrlParts.WellSplit (parts : UrlParts) (url : Text) : Prop where
  whole : ∃ fragment, url = parts.scheme ++ (units "://" ++
    (parts.authority ++ (parts.path ++ (queryText parts.query ++ fragment))))
  authority : ∀ u ∈ parts.authority, u ≠ 0x2f ∧ endsPath u = false
  path : ∀ u ∈ parts.path, endsPath u = false
  start : parts.path = [] ∨ parts.path.head? = some 0x2f
  query : ∀ q, parts.query = some q → 0x23 ∉ q

theorem splitUrl_spec {url : Text} {parts : UrlParts} (h : splitUrl url = some parts) : parts.WellSplit url := by
  rw [splitUrl] at h
  dsimp only at h
  split at h
  · next hscheme =>
    rw [Bool.and_eq_true, decide_eq_true_eq] at hscheme
    obtain ⟨tail, htail⟩ := hscheme.2
    have hdrop : (url.dropWhile isSchemeUnit).drop 3 = tail := by rw [← htail]; rfl
    have hurl : url = url.takeWhile isSchemeUnit ++ (units "://" ++ tail) := by
      rw [htail, List.takeWhile_append_dropWhile]
    rw [hdrop] at h
    obtain rfl := Option.some.inj h
    have htake : ∀ {p : UInt16 → Bool} {u : UInt16} {l : Text}, u ∈ l.takeWhile p → p u = true := List.mem_takeWhile_imp
    have hhead : ∀ (p : UInt16 → Bool) (l : Text) (u : UInt16), (l.dropWhile p).head? = some u → p u = false := by
      intro p l u hu
      have hnot := List.head?_dropWhile_not p l
      rw [hu] at hnot
      exact hnot
    generalize hbehind : tail.dropWhile (fun u => decide (u ≠ 0x2f) && ! endsPath u) = behind
    generalize hafter : behind.dropWhile (! endsPath ·) = after
    have htail : tail = tail.takeWhile (fun u => decide (u ≠ 0x2f) && ! endsPath u) ++
        (behind.takeWhile (! endsPath ·) ++ after) := by
      rw [← hafter, List.takeWhile_append_dropWhile, ← hbehind, List.takeWhile_append_dropWhile]
    refine ⟨?_, fun u hu => ?_, fun u hu => ?_, ?_, fun q hq => ?_⟩
    · have hjoin : ∀ query : Option Text, (∃ fragment, after = queryText query ++ fragment) →
          ∃ fragment, url = url.takeWhile isSchemeUnit ++ (units "://" ++
            (tail.takeWhile (fun u => decide (u ≠ 0x2f) && ! endsPath u) ++
              (behind.takeWhile (! endsPath ·) ++ (queryText query ++ fragment)))) := by
        rintro query ⟨fragment, hfragment⟩
        exact ⟨fragment, by rw [← hfragment, ← htail, ← hurl]⟩
      refine hjoin _ ?_
      split
      · next query => exact ⟨query.dropWhile (· ≠ 0x23), by rw [queryText, Option.elim_some, List.cons_append,
          List.takeWhile_append_dropWhile]⟩
      · exact ⟨after, rfl⟩
    · have hplain := htake hu
      rwa [Bool.and_eq_true, decide_eq_true_eq, Bool.not_eq_true'] at hplain
    · have hplain := htake hu
      rwa [Bool.not_eq_true'] at hplain
    · cases hcase : behind with
      | nil => exact .inl rfl
      | cons u rest =>
        have hu := hhead _ tail u (by rw [hbehind, hcase]; rfl)
        rw [Bool.and_eq_false_iff, decide_eq_false_iff_not, not_not, Bool.not_eq_false'] at hu
        rcases hu with rfl | hu
        · exact .inr rfl
        · have hstop : ¬ (! endsPath u) = true := by simp [hu]
          exact .inl (@List.takeWhile_cons_of_neg _ (! endsPath ·) u rest hstop)
    · dsimp only at hq
      split at hq
      · obtain rfl := Option.some.inj hq
        exact fun hmem => absurd (htake hmem) (by decide)
      · cases hq
  · cases h

/-! ## Accepted tools -/

/-- What the checks say of the URL of a tool and of its names. -/
structure Accepted (platform : Platform) (tool : HttpGetTool) (parts : UrlParts) : Prop where
  scheme : parts.scheme = units "https"
  authority : parts.authority ≠ []
  clean : ∀ u ∈ tool.url, 0x20 < u ∧ u ≠ 0x5c
  params : ∀ p ∈ tool.params, ∃ inPath, paramProblem platform p inPath = none
  declared : ∀ name ∈ placeholdersIn parts.path ++ tool.query, name ∈ tool.params.map CustomToolParam.name
  once : ∀ name ∈ tool.params.map CustomToolParam.name, (placeholdersIn parts.path ++ tool.query).count name = 1
  nodup : (tool.params.map CustomToolParam.name).Nodup

theorem nodup_of_repeatedNames {seen names : List Text} (h : repeatedNames seen names = []) :
    names.Nodup ∧ ∀ name ∈ names, name ∉ seen := by
  induction names generalizing seen with
  | nil => exact ⟨.nil, fun _ hmem => absurd hmem List.not_mem_nil⟩
  | cons name names ih =>
    rw [repeatedNames, List.append_eq_nil_iff] at h
    obtain ⟨hnames, hseen⟩ := ih h.2
    have hnew : name ∉ seen := fun hmem => by simp [hmem] at h
    refine ⟨List.nodup_cons.mpr ⟨fun hmem => hseen name hmem List.mem_cons_self, hnames⟩, ?_⟩
    exact List.forall_mem_cons.mpr ⟨hnew, fun other hmem hold => hseen other hmem (List.mem_cons_of_mem _ hold)⟩

theorem of_checkUsage {tool : Text} {declared used : List Text} (h : checkUsage tool declared used = []) :
    (∀ name ∈ used, name ∈ declared) ∧ ∀ name ∈ declared, used.count name = 1 := by
  rw [checkUsage, List.append_eq_nil_iff, List.flatMap_eq_nil_iff, List.flatMap_eq_nil_iff] at h
  constructor
  · intro name hname
    have hnone := h.1 name (List.mem_eraseDups.mpr hname)
    by_contra hno
    simp [hno] at hnone
  · intro name hname
    have hnone := h.2 name (List.mem_eraseDups.mpr hname)
    dsimp only at hnone
    split at hnone
    · cases hnone
    · split at hnone
      · cases hnone
      · omega

theorem of_checkParams {platform : Platform} {tool : Text} {params : List CustomToolParam} {inPath : List Text}
    (h : checkParams platform tool params inPath = []) :
    (∀ p ∈ params, ∃ inPath, paramProblem platform p inPath = none) ∧ (params.map CustomToolParam.name).Nodup := by
  rw [checkParams, List.append_eq_nil_iff, List.append_eq_nil_iff, List.flatMap_eq_nil_iff, List.map_eq_nil_iff] at h
  obtain ⟨⟨-, hparams⟩, hrepeated⟩ := h
  constructor
  · intro p hp
    have hnone := hparams p hp
    split at hnone
    · cases hnone
    · next hgood => exact ⟨_, hgood⟩
  · have hnil : repeatedNames [] (params.map CustomToolParam.name) = [] := by
      refine List.eq_nil_iff_forall_not_mem.mpr fun name hmem => ?_
      have hdup := List.mem_eraseDups.mpr hmem
      rw [hrepeated] at hdup
      cases hdup
    exact (nodup_of_repeatedNames hnil).1

theorem of_checkUrl {platform : Platform} {host : Text → Option Host} (hstd : platform.Standard host) {tool url : Text}
    {parts : UrlParts} (hparts : splitUrl url = some parts) (h : (checkUrl platform tool url).1 = []) :
    parts.scheme = units "https" ∧ parts.authority ≠ [] ∧ (∀ u ∈ url, 0x20 < u ∧ u ≠ 0x5c) ∧
      (checkUrl platform tool url).2 = some (placeholdersIn parts.path) := by
  rw [checkUrl] at h ⊢
  split at h
  · cases h
  · next hclean =>
    rw [if_neg hclean]
    rw [hparts] at h ⊢
    dsimp only at h ⊢
    split at h
    · simp at h
    · next hbraces =>
      rw [if_neg hbraces]
      simp only [List.append_eq_nil_iff] at h
      obtain ⟨⟨⟨⟨hscheme, -⟩, -⟩, houtside⟩, hhost⟩ := h
      refine ⟨?_, fun hnil => ?_, fun u hu => ?_, ?_⟩
      · by_contra hno
        rw [if_neg hno] at hscheme
        cases hscheme
      · rw [hnil] at hhost
        have hread : readHttps host (units "/") = none := by rw [readHttps]; rfl
        simp only [List.contains_nil, List.any_nil, Bool.or_self, checkHost, List.nil_append, hstd.parse_https, hread] at hhost
        cases hhost
      · simp only [Bool.or_eq_true, not_or, Bool.not_eq_true] at hclean
        obtain ⟨⟨-, hcontrol⟩, hspace⟩ := hclean
        have hcontrol := List.any_eq_false.mp hcontrol u hu
        have hspace := List.any_eq_false.mp hspace u hu
        simp only [Bool.or_eq_true, decide_eq_true_eq, not_or] at hcontrol hspace
        have hne : u ≠ 0x20 := fun heq => hspace.1 (heq ▸ by decide)
        exact ⟨UInt16.lt_of_le_of_ne (UInt16.not_lt.mp hcontrol.1) hne.symm, hspace.2⟩
      · split at houtside
        · next hnone => rw [hnone, List.append_nil]
        · cases houtside

theorem accepted_of_validate {platform : Platform} {host : Text → Option Host} (hstd : platform.Standard host)
    {requiresRepository : Bool} {tool : HttpGetTool} {parts : UrlParts} (hparts : splitUrl tool.url = some parts)
    (h : validateCustomTool platform requiresRepository (.httpGet tool) = []) : Accepted platform tool parts := by
  rw [validateCustomTool, List.append_eq_nil_iff, List.append_eq_nil_iff, validateHttpGet] at h
  simp only [List.append_eq_nil_iff] at h
  obtain ⟨⟨-, ⟨⟨hurl, hparams⟩, husage⟩, -⟩, -⟩ := h
  obtain ⟨hscheme, hauthority, hclean, hused⟩ := of_checkUrl hstd hparts hurl
  rw [hused] at husage
  obtain ⟨hdeclared, honce⟩ := of_checkUsage husage
  obtain ⟨hgood, hnodup⟩ := of_checkParams hparams
  exact ⟨hscheme, hauthority, hclean, hgood, hdeclared, honce, hnodup⟩

/-! ## Accepted arguments -/

theorem digit_unit {n : Nat} {c : Char} (h : c ∈ Nat.toDigits 10 n) : 0x30 ≤ c.toNat.toUInt16.toNat ∧
    c.toNat.toUInt16.toNat < 0x80 ∧ Char.ofNat c.toNat.toUInt16.toNat = c := by
  have hdigit := Nat.isDigit_of_mem_toDigits (by decide) (by decide) h
  rw [Char.isDigit, Bool.and_eq_true, decide_eq_true_eq, decide_eq_true_eq] at hdigit
  have hlow : 0x30 ≤ c.toNat := UInt32.le_iff_toNat_le.mp hdigit.1
  have hhigh : c.toNat ≤ 0x39 := UInt32.le_iff_toNat_le.mp hdigit.2
  have htoNat : c.toNat.toUInt16.toNat = c.toNat := UInt16.toNat_ofNat_of_lt' (by unfold UInt16.size; omega)
  rw [htoNat]
  exact ⟨hlow, by omega, Char.ofNat_toNat c⟩

theorem mem_decimal {n : Nat} {u : UInt16} (h : u ∈ decimal n) : 0x30 ≤ u.toNat ∧ u.toNat < 0x80 := by
  obtain ⟨c, hc, rfl⟩ := List.mem_map.mp h
  exact ⟨(digit_unit hc).1, (digit_unit hc).2.1⟩

theorem decimal_ne_nil (n : Nat) : decimal n ≠ [] := List.map_eq_nil_iff.not.mpr Nat.toDigits_ne_nil

theorem decimal_injective {m n : Nat} (h : decimal m = decimal n) : m = n := by
  have hback : ∀ k, (decimal k).map (fun u => Char.ofNat u.toNat) = Nat.toDigits 10 k := by
    intro k
    rw [decimal, List.map_map]
    exact (List.map_congr_left fun c hc => (digit_unit hc).2.2).trans (List.map_id' _)
  have hdigits : Nat.toDigits 10 m = Nat.toDigits 10 n := by rw [← hback, ← hback, h]
  rw [← Nat.ofDigitChars_toDigits (b := 10) (n := m) (by decide) (by decide), hdigits,
    Nat.ofDigitChars_toDigits (by decide) (by decide)]

/-- What an accepted value is as text. -/
theorem argOf_spec {platform : Platform} {p : CustomToolParam} {inPath : Bool} (hp : paramProblem platform p inPath = none)
    {value : ArgValue} (h : argOf p value = true) :
    value ≠ .inherited ∧ value.string ≠ [] ∧ WellPaired value.string := by
  unfold argOf at h
  split at h
  · next maxLength t _ =>
    simp only [Bool.and_eq_true, decide_eq_true_eq] at h
    exact ⟨nofun, List.ne_nil_of_length_pos h.1.1, isWellFormed_iff.mp h.2⟩
  · next min max n _ =>
    refine ⟨nofun, ?_, wellPaired_of_lt ?_⟩
    · cases n with
      | ofNat n => exact decimal_ne_nil n
      | negSucc n => exact List.cons_ne_nil _ _
    · cases n with
      | ofNat n => exact fun u hu => (mem_decimal hu).2
      | negSucc n => exact List.forall_mem_cons.mpr ⟨by decide, fun u hu => (mem_decimal hu).2⟩
  · next b _ =>
    refine ⟨nofun, ?_, isWellFormed_iff.mp ?_⟩ <;> cases b <;> decide
  · next values t htype =>
    have ht := List.contains_iff_mem.mp h
    have hplain : isPlainText platform t CUSTOM_TOOL_ENUM_VALUE_MAX_LENGTH = true := by
      simp only [paramProblem, htype] at hp
      split at hp
      · cases hp
      · split at hp
        · cases hp
        · split at hp
          · cases hp
          · split at hp
            · cases hp
            · next hvalues =>
              rw [Bool.not_eq_true', Bool.not_eq_false] at hvalues
              exact List.all_eq_true.mp hvalues t ht
    rw [isPlainText] at hplain
    simp only [Bool.and_eq_true, decide_eq_true_eq] at hplain
    exact ⟨nofun, List.ne_nil_of_length_pos hplain.1.1.1.1, isWellFormed_iff.mp hplain.2⟩
  · cases h

/-- The text of a value says which one it is. -/
theorem string_injective {p : CustomToolParam} {v v' : ArgValue} (h : argOf p v = true) (h' : argOf p v' = true)
    (heq : v.string = v'.string) : v = v' := by
  have hsign : ∀ m n, decimal m ≠ 0x2d :: decimal n := fun m n hmn =>
    absurd (mem_decimal (hmn ▸ List.mem_cons_self : (0x2d : UInt16) ∈ decimal m)).1 (by decide)
  unfold argOf at h h'
  split at h
  · next maxLength t htype =>
    rw [htype] at h'
    cases v' with
    | text t' => exact congrArg ArgValue.text heq
    | _ => cases h'
  · next min max n htype =>
    rw [htype] at h'
    cases v' with
    | number n' =>
      refine congrArg ArgValue.number ?_
      cases n with
      | ofNat m =>
        cases n' with
        | ofNat m' => rw [decimal_injective heq]
        | negSucc m' => exact absurd heq (hsign m (m' + 1))
      | negSucc m =>
        cases n' with
        | ofNat m' => exact absurd heq.symm (hsign m' (m + 1))
        | negSucc m' => rw [Nat.add_right_cancel (decimal_injective (List.cons.inj heq).2)]
    | _ => cases h'
  · next b htype =>
    rw [htype] at h'
    cases v' with
    | flag b' => cases b <;> cases b' <;> first | rfl | exact absurd heq (by decide)
    | _ => cases h'
  · next values t htype =>
    rw [htype] at h'
    cases v' with
    | text t' => exact congrArg ArgValue.text heq
    | _ => cases h'
  · cases h

theorem shape_eq {tool : HttpGetTool} (hnodup : (tool.params.map CustomToolParam.name).Nodup) {p : CustomToolParam}
    (hp : p ∈ tool.params) : shape tool p.name = some p := by
  rw [shape]
  cases hfind : tool.params.reverse.find? (fun q => q.name = p.name) with
  | none => exact absurd rfl (of_decide_eq_false (Bool.eq_false_iff.mpr (List.find?_eq_none.mp hfind p (List.mem_reverse.mpr hp))))
  | some q =>
    have hq : q ∈ tool.params := List.mem_reverse.mp (List.mem_of_find?_eq_some hfind)
    have hname : q.name = p.name := by simpa using List.find?_some hfind
    exact congrArg some (List.inj_on_of_nodup_map hnodup hq hp hname)

/-- What an accepted record holds. -/
structure Taken (tool : HttpGetTool) (args : CustomToolArgs) : Prop where
  known : ∀ name ∉ tool.params.map CustomToolParam.name, args.lookup name = none
  valued : ∀ p ∈ tool.params, ∀ value, property args p.name = some value → argOf p value = true

theorem taken_of_schema {platform : Platform} {tool : HttpGetTool} {parts : UrlParts} (htool : Accepted platform tool parts)
    {args : CustomToolArgs} (h : customToolArgsSchema tool args = true) : Taken tool args := by
  rw [customToolArgsSchema, Bool.and_eq_true, List.all_eq_true, List.all_eq_true] at h
  refine ⟨fun name hname => ?_, fun p hp value hvalue => ?_⟩
  · cases hlookup : args.lookup name with
    | none => rfl
    | some value =>
      obtain ⟨before, behind, hargs, -⟩ := List.lookup_eq_some_iff.mp hlookup
      have hmem : (name, value) ∈ args := hargs ▸ List.mem_append_right before List.mem_cons_self
      obtain ⟨p, hp⟩ := Option.isSome_iff_exists.mp (h.1 _ hmem)
      have hsame : p.name = name := by simpa using List.find?_some hp
      exact absurd (List.mem_map.mpr ⟨p, List.mem_reverse.mp (List.mem_of_find?_eq_some hp), hsame⟩) hname
  · have hgood := h.2 p hp
    rw [shape_eq htool.nodup hp, hvalue] at hgood
    exact hgood

section Args

variable {platform : Platform} {tool : HttpGetTool} {parts : UrlParts} {args : CustomToolArgs}

/-- A parameter's value is the record's own. -/
theorem Taken.property_eq (h : Taken tool args) (htool : Accepted platform tool parts) {name : Text}
    (hname : name ∈ tool.params.map CustomToolParam.name) : property args name = args.lookup name := by
  obtain ⟨p, hp, rfl⟩ := List.mem_map.mp hname
  obtain ⟨inPath, hgood⟩ := htool.params p hp
  cases hproperty : property args p.name with
  | none =>
    rw [property, Option.or_eq_none_iff] at hproperty
    exact hproperty.1.symm
  | some value =>
    have hne := (argOf_spec hgood (h.valued p hp value hproperty)).1
    rw [property] at hproperty
    cases hlookup : args.lookup p.name with
    | some own => rw [hlookup, Option.some_or] at hproperty; exact hproperty.symm
    | none =>
      rw [hlookup, Option.none_or] at hproperty
      split at hproperty
      · exact absurd (Option.some.inj hproperty).symm hne
      · cases hproperty

def encodedValue (args : CustomToolArgs) (name : Text) : Text :=
  ((property args name).map fun value => percentEncode isUnreserved value.string).getD []

/-- What stands in the place of a placeholder. -/
def IsValue (e : Text) : Prop :=
  ∃ t, e = percentEncode isUnreserved t ∧ t ≠ [] ∧ WellPaired t ∧ t ≠ units "." ∧ t ≠ units ".."

theorem encodedSlots_spec {names : List Text} {encoded : List (Text × Text)}
    (h : encodedSlots platform args names = .ok encoded) : ∀ name ∈ names, ∃ value, property args name = some value ∧
      refusedInPath platform value.string = false ∧ (encoded.lookup name).getD [] = encodedValue args name := by
  induction names generalizing encoded with
  | nil => exact fun _ hmem => absurd hmem List.not_mem_nil
  | cons head names ih =>
    rw [encodedSlots] at h
    split at h
    · cases h
    · next value hvalue =>
      split at h
      · cases h
      · next hrefused =>
        split at h
        · cases h
        · next code hcode =>
          rw [encodeURIComponent, Option.ite_none_right_eq_some] at hcode
          cases hrest : encodedSlots platform args names with
          | error stop => rw [hrest] at h; cases h
          | ok rest =>
            rw [hrest] at h
            obtain rfl := Except.ok.inj h
            have hhead : ((head, code) :: rest).lookup head = some code := by rw [List.lookup_cons, beq_self_eq_true]
            have hencoded : encodedValue args head = code := by
              rw [encodedValue, hvalue, ← Option.some.inj hcode.2]
              rfl
            intro name hname
            by_cases heq : name = head
            · subst heq
              exact ⟨value, hvalue, Bool.eq_false_iff.mpr hrefused, by rw [hhead, hencoded]; rfl⟩
            · obtain ⟨own, hown, hfree, hlookup⟩ := ih hrest name ((List.mem_cons.mp hname).resolve_left heq)
              refine ⟨own, hown, hfree, ?_⟩
              rw [List.lookup_cons, beq_eq_false_iff_ne.mpr heq]
              exact hlookup

def queryPair (keep : Nat → Bool) (args : CustomToolArgs) (name : Text) : Option Text :=
  (property args name).map fun value => name ++ 0x3d :: percentEncode keep value.string

theorem encodedPairs_spec {names : List Text} {appended : List Text} (h : encodedPairs args names = .ok appended) :
    appended = names.filterMap (queryPair isUnreserved args) := by
  induction names generalizing appended with
  | nil => exact (Except.ok.inj h).symm
  | cons head names ih =>
    rw [encodedPairs] at h
    split at h
    · next hvalue =>
      rw [List.filterMap_cons_none (by rw [queryPair, hvalue]; rfl)]
      exact ih h
    · next value hvalue =>
      split at h
      · cases h
      · next code hcode =>
        rw [encodeURIComponent, Option.ite_none_right_eq_some] at hcode
        cases hrest : encodedPairs args names with
        | error stop => rw [hrest] at h; cases h
        | ok rest =>
          rw [hrest] at h
          obtain rfl := Except.ok.inj h
          have hpair : queryPair isUnreserved args head = some (head ++ 0x3d :: code) := by
            rw [queryPair, hvalue, ← Option.some.inj hcode.2]
            rfl
          rw [List.filterMap_cons_some hpair, ih hrest]

theorem isValue_of_taken {host : Text → Option Host} (hstd : platform.Standard host) (htool : Accepted platform tool parts)
    (h : Taken tool args) {name : Text} (hname : name ∈ tool.params.map CustomToolParam.name) {value : ArgValue}
    (hvalue : property args name = some value) (hfree : refusedInPath platform value.string = false) :
    IsValue (encodedValue args name) := by
  obtain ⟨p, hp, rfl⟩ := List.mem_map.mp hname
  obtain ⟨inPath, hgood⟩ := htool.params p hp
  obtain ⟨-, hne, hpaired⟩ := argOf_spec hgood (h.valued p hp value hvalue)
  have hdots : ∀ dots, (dots = units "." ∨ dots = units "..") → value.string ≠ dots := by
    intro dots hdots heq
    have hplain : dots.all (· < 0x80) = true := by
      rcases hdots with rfl | rfl <;> decide
    have hplain : ∀ u ∈ dots, u < 0x80 := fun u hu => of_decide_eq_true (List.all_eq_true.mp hplain u hu)
    rw [refusedInPath, Bool.or_eq_false_iff, heq, hstd.nfkc_plain dots hplain] at hfree
    rcases hdots with rfl | rfl <;> exact absurd hfree.2 (by decide)
  exact ⟨value.string, by rw [encodedValue, hvalue]; rfl, hne, hpaired, hdots _ (.inl rfl), hdots _ (.inr rfl)⟩

end Args

/-! ## Units of values -/

theorem isUnreserved_lt {c : Nat} (h : isUnreserved c = true) : c < 0x80 := by
  simp only [isUnreserved, Bool.or_eq_true, Bool.and_eq_true, decide_eq_true_eq, List.contains_iff_mem, List.mem_cons,
    List.not_mem_nil, or_false] at h
  omega

theorem isGraphic_lt {c : Nat} (h : isGraphic c = true) : c < 0x80 := by
  rw [isGraphic, Bool.and_eq_true, decide_eq_true_eq, decide_eq_true_eq] at h
  omega

theorem isPathKept_lt {c : Nat} (h : isPathKept c = true) : c < 0x80 := isGraphic_lt (Bool.and_eq_true_iff.mp h).1

theorem isQueryKept_lt {c : Nat} (h : isQueryKept c = true) : c < 0x80 := isGraphic_lt (Bool.and_eq_true_iff.mp h).1

/-- The characters that stand in a path as they are and are in no value: `$ & + , / : ; = @ [ ] |`. -/
def isSeparator (u : UInt16) : Bool :=
  [0x24, 0x26, 0x2b, 0x2c, 0x2f, 0x3a, 0x3b, 0x3d, 0x40, 0x5b, 0x5d, 0x7c].contains u

def inValue (u : UInt16) : Bool := isUnreserved u.toNat || isEscapeUnit u

theorem inValue_lt {u : UInt16} (h : inValue u = true) : u.toNat < 0x80 :=
  (Bool.or_eq_true_iff.mp h).elim isUnreserved_lt isEscapeUnit_lt

theorem inValue_spec {u : UInt16} (h : inValue u = true) : isPathKept u.toNat = true ∧ isSlash u = false ∧
    endsPath u = false ∧ 0x20 < u ∧ u ≠ 0x26 ∧ isSeparator u = false := by
  have hall : ∀ n < 0x80, inValue n.toUInt16 = true → isPathKept n.toUInt16.toNat = true ∧ isSlash n.toUInt16 = false ∧
      endsPath n.toUInt16 = false ∧ 0x20 < n.toUInt16 ∧ n.toUInt16 ≠ 0x26 ∧ isSeparator n.toUInt16 = false := by decide
  obtain ⟨n, hn, rfl⟩ : ∃ n < 0x80, n.toUInt16 = u := ⟨u.toNat, inValue_lt h, UInt16.ofNat_toNat⟩
  exact hall n hn h

theorem mem_encoded {t : Text} {u : UInt16} (h : u ∈ percentEncode isUnreserved t) : inValue u = true :=
  Bool.or_eq_true_iff.mpr ((mem_percentEncode (fun _ => isUnreserved_lt) h).imp_left And.right)

namespace IsValue

variable {e : Text}

theorem inValue (h : IsValue e) : ∀ u ∈ e, inValue u = true := by
  obtain ⟨t, rfl, -⟩ := h
  exact fun u hu => mem_encoded hu

theorem ne_nil (h : IsValue e) : e ≠ [] := by
  obtain ⟨t, rfl, hne, -⟩ := h
  exact percentEncode_eq_nil_iff.not.mpr hne

theorem percentEncode_append (h : IsValue e) (a t : Text) : percentEncode isPathKept (a ++ (e ++ t)) =
    percentEncode isPathKept a ++ (e ++ percentEncode isPathKept t) := by
  have hkept : ∀ u ∈ e, isPathKept u.toNat = true := fun u hu => (inValue_spec (h.inValue u hu)).1
  have hhead : ∀ u, (e ++ t).head? = some u → isTrailing u = false := by
    intro u hu
    cases he : e with
    | nil => exact absurd he h.ne_nil
    | cons v rest =>
      rw [he, List.cons_append, List.head?_cons] at hu
      exact Option.some.inj hu ▸ not_trailing_of_lt (inValue_lt (h.inValue v (he ▸ List.mem_cons_self)))
  rw [Lib.Units.percentEncode_append hhead, percentEncode_keep_append (fun _ => isPathKept_lt) hkept]

end IsValue

/-! ## Filled paths -/

def fill (value : Text → Text) : Text → List PathPiece → Text
  | run, [] => percentEncode isPathKept run
  | run, .unit u :: ps => fill value (run ++ [u]) ps
  | run, .slot name :: ps => percentEncode isPathKept run ++ (value name ++ fill value [] ps)

def templateSegments (path : Text) : List (List PathPiece) :=
  (pieces path.tail).splitOnP fun piece => match piece with
    | .unit u => isSlash u
    | .slot _ => false

section Fill

variable {value : Text → Text} {ps : List PathPiece}

theorem fill_eq (hvalue : ∀ name, .slot name ∈ ps → IsValue (value name)) (run : Text) :
    percentEncode isPathKept (run ++ ps.flatMap (PathPiece.filled value)) = fill value run ps := by
  induction ps generalizing run with
  | nil => rw [List.flatMap_nil, List.append_nil, fill]
  | cons piece ps ih =>
    have hps : ∀ name, .slot name ∈ ps → IsValue (value name) := fun name hmem => hvalue name (List.mem_cons_of_mem _ hmem)
    cases piece with
    | unit u =>
      rw [fill, ← ih hps, List.flatMap_cons, List.append_assoc]
      rfl
    | slot name =>
      rw [fill, ← ih hps, List.nil_append, List.flatMap_cons, PathPiece.filled,
        (hvalue name List.mem_cons_self).percentEncode_append]

theorem fill_not_dots (hvalue : ∀ name, .slot name ∈ ps → IsValue (value name))
    (hown : ps.flatMap PathPiece.raw ∉ dotSegments)
    (hescape : ∀ w ∈ [units "%\x7b", units "%2\x7b"], ¬ w <:+: ps.flatMap PathPiece.raw) :
    percentEncode isPathKept (ps.flatMap (PathPiece.filled value)) ∉ dotSegments := by
  intro hmem
  have hdot : isPathKept 0x2e = true := by decide
  obtain ⟨front, rest, rfl, hfirst⟩ : ∃ front rest, ps = (front : Text).map PathPiece.unit ++ rest ∧
      (rest = [] ∨ ∃ name behind, rest = .slot name :: behind) := by
    clear hvalue hown hescape hmem
    induction ps with
    | nil => exact ⟨[], [], rfl, .inl rfl⟩
    | cons piece ps ih =>
      cases piece with
      | slot name => exact ⟨[], _, rfl, .inr ⟨name, ps, rfl⟩⟩
      | unit u =>
        obtain ⟨front, rest, rfl, hrest⟩ := ih
        exact ⟨u :: front, rest, rfl, hrest⟩
  have hraw : ∀ f : PathPiece → Text, (∀ u, f (.unit u) = [u]) → (front.map PathPiece.unit).flatMap f = front := by
    intro f hf
    rw [List.flatMap_map]
    simp only [hf, List.flatMap_singleton']
  rw [List.flatMap_append, hraw _ fun _ => rfl] at hmem hown hescape
  rcases hfirst with rfl | ⟨name, behind, rfl⟩
  · rw [List.flatMap_nil, List.append_nil] at hmem hown
    have hdotted := dotted_of_mem hmem
    rw [← List.append_nil (percentEncode isPathKept front)] at hdotted
    rw [percentEncode_of_dotted (fun _ => isPathKept_lt) hdot hdotted] at hmem
    exact hown hmem
  · obtain ⟨t, heq, hne, hpaired, hone, htwo⟩ := hvalue name (List.mem_append_right _ List.mem_cons_self)
    have hsplit := (hvalue name (List.mem_append_right _ List.mem_cons_self)).percentEncode_append front
      (behind.flatMap (PathPiece.filled value))
    rw [List.flatMap_cons, PathPiece.filled, hsplit] at hmem
    have hfront := percentEncode_of_dotted (fun _ => isPathKept_lt) hdot (dotted_of_mem hmem)
    rw [hfront, heq, percentEncode] at hmem
    have hwhole : EndsWhole front := by
      constructor
      · rintro ⟨a, rfl⟩
        exact hescape (units "%\x7b") (by decide) ⟨a, name ++ [0x7d] ++ behind.flatMap PathPiece.raw, by simp [PathPiece.raw, units]⟩
      · rintro ⟨a, rfl⟩
        exact hescape (units "%2\x7b") (by decide) ⟨a, name ++ [0x7d] ++ behind.flatMap PathPiece.raw, by simp [PathPiece.raw, units]⟩
    have hpoints : codePoints t ≠ [] := fun hnil => hne (codePoints_injective hpaired .nil hnil)
    rcases dots_of_encoded (fun _ => isUnreserved_lt) (by decide) (by decide) lt_of_mem_codePoints hpoints hwhole hmem
      with hcs | hcs
    · exact hone (codePoints_injective hpaired (isWellFormed_iff.mp (by decide)) hcs)
    · exact htwo (codePoints_injective hpaired (isWellFormed_iff.mp (by decide)) hcs)

end Fill

/-! ## Addresses -/

theorem flatMap_infix {α β : Type} {a b : List α} (h : a <:+: b) (f : α → List β) : a.flatMap f <:+: b.flatMap f := by
  obtain ⟨front, back, rfl⟩ := h
  exact ⟨front.flatMap f, back.flatMap f, by rw [List.flatMap_append, List.flatMap_append]⟩

theorem readPath_filled {path : Text} {value : Text → Text} (hstart : path = [] ∨ path.head? = some 0x2f)
    (hclean : ∀ u ∈ path, u ≠ 0x5c) (hvalue : ∀ name, .slot name ∈ pieces path → IsValue (value name))
    (hnames : ∀ name, .slot name ∈ pieces path → ∀ u ∈ name, isSlash u = false)
    (hdots : ∀ segment ∈ path.splitOn 0x2f, segment ∉ dotSegments)
    (hescape : ∀ w ∈ [units "%\x7b", units "%2\x7b"], ¬ w <:+: path) :
    readPath ((pieces path).flatMap (PathPiece.filled value)) = (templateSegments path).map (fill value []) := by
  cases path with
  | nil => rfl
  | cons u path =>
    obtain rfl : u = 0x2f := Option.some.inj (hstart.resolve_left (List.cons_ne_nil u path))
    have hpieces : pieces (0x2f :: path) = .unit 0x2f :: pieces path := pieces_cons (by decide) path
    have hslot : ∀ {name}, .slot name ∈ pieces path → .slot name ∈ pieces (0x2f :: path) :=
      fun hmem => hpieces ▸ List.mem_cons_of_mem _ hmem
    have hunit : ∀ {v}, .unit v ∈ pieces path → v ≠ 0x5c :=
      fun hmem => hclean _ (List.mem_cons_of_mem _ (mem_of_unit_mem hmem))
    set isCut : PathPiece → Bool := fun piece => match piece with
      | .unit u => isSlash u
      | .slot _ => false
    have hfilled : ((pieces path).flatMap (PathPiece.filled value)).splitOnP isSlash =
        ((pieces path).splitOnP isCut).map (·.flatMap (PathPiece.filled value)) := by
      refine splitOnP_flatMap fun piece hpiece => ?_
      cases piece with
      | unit v => exact .inl ⟨v, rfl, rfl⟩
      | slot name => exact .inr ⟨rfl, fun v hv => (inValue_spec ((hvalue name (hslot hpiece)).inValue v hv)).2.1⟩
    have hraw : path.splitOn 0x2f = ((pieces path).splitOnP isCut).map (·.flatMap PathPiece.raw) := by
      conv_lhs => rw [← pieces_raw path, List.splitOn_eq_splitOnP]
      refine splitOnP_flatMap fun piece hpiece => ?_
      cases piece with
      | unit v =>
        refine .inl ⟨v, rfl, ?_⟩
        show (v == 0x2f) = (decide (v = 0x2f) || decide (v = 0x5c))
        rw [decide_eq_false (hunit hpiece), Bool.or_false]
        rfl
      | slot name =>
        refine .inr ⟨rfl, fun v hv => ?_⟩
        rcases List.mem_cons.mp hv with rfl | hv
        · rfl
        · rcases List.mem_append.mp hv with hv | hv
          · have hplain := hnames name (hslot hpiece) v hv
            rw [isSlash, Bool.or_eq_false_iff] at hplain
            exact hplain.1
          · obtain rfl := List.mem_singleton.mp hv
            rfl
    have hsegment : ∀ segment ∈ (pieces path).splitOnP isCut,
        percentEncode isPathKept (segment.flatMap (PathPiece.filled value)) = fill value [] segment ∧
          fill value [] segment ∉ dotSegments := by
      intro segment hmem
      have hinfix := infix_of_mem_splitOnP hmem
      have hvalues : ∀ name, .slot name ∈ segment → IsValue (value name) :=
        fun name hname => hvalue name (hslot (List.IsInfix.subset hinfix hname))
      have heq := fill_eq hvalues []
      rw [List.nil_append] at heq
      refine ⟨heq, heq ▸ fill_not_dots hvalues ?_ fun w hw hsub => hescape w hw ?_⟩
      · refine hdots _ ?_
        rw [List.splitOn_cons_eq_if_modifyHead, if_pos (beq_self_eq_true _), hraw]
        exact List.mem_cons_of_mem _ (List.mem_map_of_mem hmem)
      · have hpath := flatMap_infix hinfix PathPiece.raw
        rw [pieces_raw] at hpath
        exact (hsub.trans hpath).trans (List.suffix_cons _ path).isInfix
    have hsegments : (rawSegments ((pieces (0x2f :: path)).flatMap (PathPiece.filled value))).map
        (percentEncode isPathKept) = (templateSegments (0x2f :: path)).map (fill value []) := by
      rw [hpieces, List.flatMap_cons, PathPiece.filled, List.singleton_append, rawSegments,
        if_pos (by decide), hfilled,
        List.map_map]
      exact List.map_congr_left fun segment hmem => (hsegment segment hmem).1
    rw [readPath, hsegments, resolve_of_not_dots, List.nil_append]
    intro segment hmem
    obtain ⟨own, hown, rfl⟩ := List.mem_map.mp hmem
    exact (hsegment own hown).2

def queryOf (items : List Text) : Option Text :=
  if [0x26].intercalate (items.filter (· ≠ [])) = [] then none else some ([0x26].intercalate (items.filter (· ≠ [])))

theorem map_queryOf {keep : Nat → Bool} (hplain : ∀ c, keep c = true → c < 0x80) (hamp : keep 0x26 = true)
    (items : List Text) : (queryOf items).map (percentEncode keep) = queryOf (items.map (percentEncode keep)) := by
  have hfilter : (items.map (percentEncode keep)).filter (· ≠ []) = (items.filter (· ≠ [])).map (percentEncode keep) := by
    rw [List.filter_map]
    refine congrArg _ (List.filter_congr fun a _ => ?_)
    exact decide_eq_decide.mpr (not_congr percentEncode_eq_nil_iff)
  have hjoin : percentEncode keep ([0x26].intercalate (items.filter (· ≠ []))) =
      [0x26].intercalate ((items.filter (· ≠ [])).map (percentEncode keep)) :=
    @percentEncode_intercalate keep hplain 0x26 hamp (items.filter (· ≠ []))
  rw [queryOf, queryOf, hfilter, ← hjoin]
  by_cases hnil : [0x26].intercalate (items.filter (· ≠ [])) = []
  · rw [if_pos hnil, if_pos (by rw [hnil]; rfl)]
    rfl
  · rw [if_neg hnil, if_neg (percentEncode_eq_nil_iff.not.mpr hnil)]
    rfl

theorem hrefOf_eq (parts : UrlParts) (encoded : List (Text × Text)) (appended : List Text) :
    hrefOf parts encoded appended = parts.scheme ++ units "://" ++ (parts.authority ++
      ((pieces parts.path).flatMap (PathPiece.filled fun name => (encoded.lookup name).getD []) ++
        queryText (queryOf (parts.query.getD [] :: appended)))) := by
  rw [hrefOf, queryOf]
  split <;> rfl

/-- What the characters of the names of tools are. -/
theorem toolName_unit {name : Text} (h : isToolName name = true) :
    ∀ u ∈ name, inValue u = true ∧ isQueryKept u.toNat = true := by
  have hall : ∀ n < 0x80, (isLower n.toUInt16 || isDigit n.toUInt16 || n.toUInt16 = 0x5f) = true →
      inValue n.toUInt16 = true ∧ isQueryKept n.toUInt16.toNat = true := by decide
  have hunit : ∀ u : UInt16, (isLower u || isDigit u || u = 0x5f) = true → u.toNat < 0x80 := by
    intro u hu
    simp only [isLower, isDigit, Bool.or_eq_true, Bool.and_eq_true, decide_eq_true_eq, UInt16.le_iff_toNat_le,
      ← UInt16.toNat_inj, UInt16.reduceToNat] at hu
    omega
  have hmem : ∀ u ∈ name, (isLower u || isDigit u || u = 0x5f) = true := by
    cases name with
    | nil => exact fun _ hmem => absurd hmem List.not_mem_nil
    | cons v rest =>
      rw [isToolName, Bool.and_eq_true, Bool.and_eq_true] at h
      exact List.forall_mem_cons.mpr ⟨by rw [h.1.1]; rfl, fun u hu => List.all_eq_true.mp h.2 u hu⟩
  intro u hu
  obtain ⟨n, hn, rfl⟩ : ∃ n < 0x80, n.toUInt16 = u := ⟨u.toNat, hunit u (hmem u hu), UInt16.ofNat_toNat⟩
  exact hall n hn (hmem _ hu)

theorem Accepted.toolName {platform : Platform} {tool : HttpGetTool} {parts : UrlParts}
    (htool : Accepted platform tool parts) {name : Text} (hname : name ∈ tool.params.map CustomToolParam.name) :
    isToolName name = true := by
  obtain ⟨p, hp, rfl⟩ := List.mem_map.mp hname
  obtain ⟨inPath, hgood⟩ := htool.params p hp
  by_contra hno
  rw [paramProblem, if_pos (by simpa using hno)] at hgood
  cases hgood

/-- Every name of the query is listed once. -/
theorem Accepted.query_nodup {platform : Platform} {tool : HttpGetTool} {parts : UrlParts}
    (htool : Accepted platform tool parts) : tool.query.Nodup := by
  refine List.nodup_iff_count_le_one.mpr fun name => ?_
  by_cases hname : name ∈ tool.query
  · have honce := htool.once name (htool.declared name (List.mem_append_right _ hname))
    rw [List.count_append] at honce
    omega
  · rw [List.count_eq_zero.mpr hname]
    exact Nat.zero_le 1

/-- The characters of a value that a query keeps: `'` is escaped, too. -/
def isQueryValueKept (c : Nat) : Bool := isUnreserved c && isQueryKept c

/-- The pairs of a query, as they stand in the address. -/
theorem percentEncode_queryPair {args : CustomToolArgs} {name : Text} (hname : isToolName name = true) :
    (queryPair isUnreserved args name).map (percentEncode isQueryKept) = queryPair isQueryValueKept args name := by
  have hescape : ∀ u, isEscapeUnit u = true → isQueryKept u.toNat = true := by
    have hall : ∀ n < 0x80, isEscapeUnit n.toUInt16 = true → isQueryKept n.toUInt16.toNat = true := by decide
    intro u hu
    obtain ⟨n, hn, rfl⟩ : ∃ n < 0x80, n.toUInt16 = u := ⟨u.toNat, isEscapeUnit_lt hu, UInt16.ofNat_toNat⟩
    exact hall n hn hu
  rw [queryPair, queryPair, Option.map_map]
  refine congrArg (fun f => (property args name).map f) (funext fun value => ?_)
  show percentEncode isQueryKept (name ++ 0x3d :: percentEncode isUnreserved value.string) = _
  rw [percentEncode_append_cons (fun _ => isQueryKept_lt) (by decide),
    percentEncode_of_keep (fun _ => isQueryKept_lt) fun u hu => (toolName_unit hname u hu).2,
    percentEncode_percentEncode (fun _ => isUnreserved_lt) (fun _ => isQueryKept_lt) hescape]
  rfl

theorem of_customToolUrl {platform : Platform} {tool : HttpGetTool} {parts : UrlParts} {args : CustomToolArgs}
    {url : Address} (hparts : splitUrl tool.url = some parts) (h : customToolUrl platform args tool = .ok url) :
    ∃ encoded appended, encodedSlots platform args (placeholdersIn parts.path) = .ok encoded ∧
      encodedPairs args tool.query = .ok appended ∧ platform.parse (hrefOf parts encoded appended) = some url := by
  rw [customToolUrl, hparts] at h
  dsimp only at h
  split at h
  · cases h
  · cases h
  · next encoded appended hslots hpairs =>
    refine ⟨encoded, appended, hslots, hpairs, ?_⟩
    split at h
    · cases h
    · rw [pinned] at h
      split at h
      · next own base hparse hbase =>
        split at h
        · split at h
          · cases h
          · exact hparse.trans (congrArg some (Except.ok.inj h))
        · cases h
      · cases h

/-- The templates that are filled without a part of the path lost: no segment of the path is a dot
segment, and no placeholder stands right behind `%` or `%2`. -/
structure Fillable (path : Text) : Prop where
  dots : ∀ segment ∈ path.splitOn 0x2f, segment ∉ dotSegments
  escapes : ∀ w ∈ [units "%\x7b", units "%2\x7b"], ¬ w <:+: path

section Address

variable {platform : Platform} {host : Text → Option Host} {tool : HttpGetTool} {parts : UrlParts} {args : CustomToolArgs}
  {url : Address}

theorem address_of_call (hstd : platform.Standard host) (htool : Accepted platform tool parts)
    (hparts : splitUrl tool.url = some parts) (hpath : Fillable parts.path) (htaken : Taken tool args)
    (h : customToolUrl platform args tool = .ok url) :
    (∀ name ∈ placeholdersIn parts.path, IsValue (encodedValue args name)) ∧ ∃ read, host parts.authority = some read ∧
      url = ⟨units "https://" ++ (read.hostname ++ read.port), read.hostname,
        (templateSegments parts.path).map (fill (encodedValue args) []),
        queryOf (percentEncode isQueryKept (parts.query.getD []) :: tool.query.filterMap (queryPair isQueryValueKept args)),
        none⟩ := by
  obtain ⟨encoded, appended, hslots, hpairs, hparse⟩ := of_customToolUrl hparts h
  have hsplit := splitUrl_spec hparts
  obtain ⟨fragment, hwhole⟩ := hsplit.whole
  have hdeclared : ∀ name ∈ placeholdersIn parts.path, name ∈ tool.params.map CustomToolParam.name :=
    fun name hname => htool.declared name (List.mem_append_left _ hname)
  have hquery : ∀ name ∈ tool.query, isToolName name = true :=
    fun name hname => htool.toolName (htool.declared name (List.mem_append_right _ hname))
  have hvalues : ∀ name ∈ placeholdersIn parts.path, IsValue (encodedValue args name) := by
    intro name hname
    obtain ⟨value, hvalue, hfree, -⟩ := encodedSlots_spec hslots name hname
    exact isValue_of_taken hstd htool htaken (hdeclared name hname) hvalue hfree
  have hfilled : (pieces parts.path).flatMap (PathPiece.filled fun name => (encoded.lookup name).getD []) =
      (pieces parts.path).flatMap (PathPiece.filled (encodedValue args)) := by
    refine List.flatMap_congr fun piece hpiece => ?_
    cases piece with
    | unit u => rfl
    | slot name =>
      obtain ⟨value, -, -, hlookup⟩ := encodedSlots_spec hslots name (mem_placeholdersIn.mpr hpiece)
      exact hlookup
  obtain rfl := encodedPairs_spec hpairs
  -- No unit of the URL is white space, and none of a value either.
  have hclean : ∀ {u}, u ∈ parts.authority ∨ u ∈ parts.path ∨ (∃ q, parts.query = some q ∧ u ∈ q) → 0x20 < u ∧ u ≠ 0x5c := by
    intro u hu
    refine htool.clean u ?_
    rw [hwhole]
    simp only [List.mem_append]
    rcases hu with hu | hu | ⟨q, hq, hu⟩
    · exact .inr (.inr (.inl hu))
    · exact .inr (.inr (.inr (.inl hu)))
    · refine .inr (.inr (.inr (.inr (.inl ?_))))
      rw [hq]
      exact List.mem_cons_of_mem _ hu
  have hpathUnit : ∀ u ∈ (pieces parts.path).flatMap (PathPiece.filled (encodedValue args)),
      endsPath u = false ∧ 0x20 < u := by
    intro u hu
    obtain ⟨piece, hpiece, hu⟩ := List.mem_flatMap.mp hu
    cases piece with
    | unit v =>
      obtain rfl := List.mem_singleton.mp hu
      have hmem := mem_of_unit_mem hpiece
      exact ⟨hsplit.path u hmem, (hclean (.inr (.inl hmem))).1⟩
    | slot name =>
      have hspec := inValue_spec ((hvalues name (mem_placeholdersIn.mpr hpiece)).inValue u hu)
      exact ⟨hspec.2.2.1, hspec.2.2.2.1⟩
  have hqueryUnit : ∀ q, queryOf (parts.query.getD [] :: tool.query.filterMap (queryPair isUnreserved args)) = some q →
      ∀ u ∈ q, u ≠ 0x23 ∧ 0x20 < u := by
    intro q hq u hu
    rw [queryOf] at hq
    split at hq
    · cases hq
    · obtain rfl := Option.some.inj hq
      rcases mem_intercalate hu with rfl | ⟨item, hitem, hu⟩
      · decide
      · rcases List.mem_cons.mp (List.mem_of_mem_filter hitem) with rfl | hitem
        · cases hfixed : parts.query with
          | none => rw [hfixed] at hu; cases hu
          | some fixed =>
            rw [hfixed] at hu
            exact ⟨fun heq => hsplit.query fixed hfixed (heq ▸ hu), (hclean (.inr (.inr ⟨fixed, hfixed, hu⟩))).1⟩
        · obtain ⟨name, hname, hpair⟩ := List.mem_filterMap.mp hitem
          obtain ⟨value, -, rfl⟩ := Option.map_eq_some_iff.mp hpair
          have hvalue : inValue u = true → u ≠ 0x23 ∧ 0x20 < u := by
            intro hin
            have hspec := inValue_spec hin
            exact ⟨fun heq => absurd (heq ▸ hspec.2.2.1) (by decide), hspec.2.2.2.1⟩
          rcases List.mem_append.mp hu with hu | hu
          · exact hvalue (toolName_unit (hquery name hname) u hu).1
          · rcases List.mem_cons.mp hu with rfl | hu
            · decide
            · exact hvalue (mem_encoded hu)
  refine ⟨hvalues, ?_⟩
  have hstart : (pieces parts.path).flatMap (PathPiece.filled (encodedValue args)) = [] ∨
      ((pieces parts.path).flatMap (PathPiece.filled (encodedValue args))).head? = some 0x2f := by
    rcases hsplit.start with hnil | hhead
    · rw [hnil]
      exact .inl rfl
    · obtain ⟨rest, hrest⟩ := List.head?_eq_some_iff.mp hhead
      rw [hrest, pieces_cons (by decide)]
      exact .inr rfl
  have hhref : hrefOf parts encoded (tool.query.filterMap (queryPair isUnreserved args)) = units "https://" ++
      (parts.authority ++ ((pieces parts.path).flatMap (PathPiece.filled (encodedValue args)) ++
        queryText (queryOf (parts.query.getD [] :: tool.query.filterMap (queryPair isUnreserved args))))) := by
    rw [hrefOf_eq, hfilled, htool.scheme]
    rfl
  have hread := readHttps_eq host htool.authority ?_ (fun u hu => (hpathUnit u hu).1) hstart
    (fun q hq hmem => (hqueryUnit q hq _ hmem).1 rfl) ?_
  · rw [hhref, hstd.parse_https, hread] at hparse
    obtain ⟨read, hhost, rfl⟩ := Option.map_eq_some_iff.mp hparse
    refine ⟨read, hhost, ?_⟩
    have hpairs' : (tool.query.filterMap (queryPair isUnreserved args)).map (percentEncode isQueryKept) =
        tool.query.filterMap (queryPair isQueryValueKept args) := by
      rw [List.map_filterMap]
      exact List.filterMap_congr fun name hname => percentEncode_queryPair (hquery name hname)
    have hreadPath := readPath_filled hsplit.start (fun u hu => (hclean (.inr (.inl hu))).2)
      (fun name hname => hvalues name (mem_placeholdersIn.mpr hname))
      (fun name hname u hu => (inValue_spec (toolName_unit
        (htool.toolName (hdeclared name (mem_placeholdersIn.mpr hname))) u hu).1).2.1) hpath.dots hpath.escapes
    rw [hreadPath, map_queryOf (fun _ => isQueryKept_lt) (by decide), List.map_cons, hpairs']
  · intro u hu
    have hown := hsplit.authority u hu
    have hslash := (hclean (.inl hu)).2
    rw [endsPath, Bool.or_eq_false_iff, decide_eq_false_iff_not, decide_eq_false_iff_not] at hown
    simp [endsAuthority, isSlash, hown.1, hown.2.1, hown.2.2, hslash]
  · intro u hu
    rcases List.mem_append.mp hu with hu | hu
    · exact (hclean (.inl hu)).1
    · rcases List.mem_append.mp hu with hu | hu
      · exact (hpathUnit u hu).2
      · cases hq : queryOf (parts.query.getD [] :: tool.query.filterMap (queryPair isUnreserved args)) with
        | none => rw [hq] at hu; cases hu
        | some q =>
          rw [hq] at hu
          rcases List.mem_cons.mp hu with rfl | hu
          · decide
          · exact (hqueryUnit q hq u hu).2

end Address

/-! ## Addresses tell arguments apart -/

/-- Between two placeholders stands a separator; `behind`: the last one has none behind it yet. -/
def Separated : Bool → List PathPiece → Bool
  | _, [] => true
  | behind, .unit u :: ps => Separated (behind && ! isSeparator u) ps
  | behind, .slot _ :: ps => ! behind && Separated true ps

/-- What the parser keeps is in values, but for the separators. -/
theorem inValue_of_kept {u : UInt16} (h : isPathKept u.toNat = true) (hseparator : isSeparator u = false)
    (hslash : u ≠ 0x5c) : inValue u = true := by
  have hall : ∀ n < 0x80, isPathKept n.toUInt16.toNat = true → isSeparator n.toUInt16 = false → n.toUInt16 ≠ 0x5c →
      inValue n.toUInt16 = true := by decide
  obtain ⟨n, hn, rfl⟩ : ∃ n < 0x80, n.toUInt16 = u := ⟨u.toNat, isPathKept_lt h, UInt16.ofNat_toNat⟩
  exact hall n hn h hseparator hslash

theorem fill_append_cons (value : Text → Text) {u : UInt16} (hu : isPathKept u.toNat = true) (run run' : Text)
    (ps : List PathPiece) : fill value (run ++ u :: run') ps = percentEncode isPathKept run ++ u :: fill value run' ps := by
  induction ps generalizing run' with
  | nil => rw [fill, fill, percentEncode_append_cons (fun _ => isPathKept_lt) hu]
  | cons piece ps ih =>
    cases piece with
    | unit v => rw [fill, fill, List.append_assoc, List.cons_append, ih]
    | slot name =>
      rw [fill, fill, percentEncode_append_cons (fun _ => isPathKept_lt) hu, List.append_assoc, List.cons_append]

/-- Behind a placeholder stands the same text whatever the values are, at least up to a separator. -/
theorem fill_behind {run : Text} (hrun : ∀ u ∈ run, isSeparator u = false ∧ u ≠ 0x5c) {ps : List PathPiece}
    (hps : Separated true ps = true) (hunits : ∀ u, .unit u ∈ ps → u ≠ 0x5c) :
    (∃ text, ∀ value, fill value run ps = text) ∨ ∃ (text : Text) (u : UInt16) (tail : (Text → Text) → Text),
      (∀ v ∈ text, inValue v = true) ∧ inValue u = false ∧
      ∀ value, fill value run ps = text ++ u :: tail value := by
  induction ps generalizing run with
  | nil => exact .inl ⟨_, fun _ => rfl⟩
  | cons piece ps ih =>
    have hrest : ∀ u, .unit u ∈ ps → u ≠ 0x5c := fun u hu => hunits u (List.mem_cons_of_mem _ hu)
    cases piece with
    | slot name => cases hps
    | unit u =>
      rw [Separated, Bool.true_and] at hps
      have hslash : u ≠ 0x5c := hunits u List.mem_cons_self
      cases hu : isSeparator u with
      | true =>
        have hkept : isPathKept u.toNat = true ∧ inValue u = false := by
          rw [isSeparator, List.contains_iff_mem] at hu
          have hall : [0x24, 0x26, 0x2b, 0x2c, 0x2f, 0x3a, 0x3b, 0x3d, 0x40, 0x5b, 0x5d, (0x7c : UInt16)].all
              (fun v => isPathKept v.toNat && ! inValue v) = true := by decide
          have hself := List.all_eq_true.mp hall u hu
          rwa [Bool.and_eq_true, Bool.not_eq_true'] at hself
        refine .inr ⟨percentEncode isPathKept run, u, fun value => fill value [] ps, fun v hv => ?_, hkept.2, fun value => ?_⟩
        · rcases mem_percentEncode (fun _ => isPathKept_lt) hv with ⟨hmem, hkeep⟩ | hescape
          · exact inValue_of_kept hkeep (hrun v hmem).1 (hrun v hmem).2
          · rw [inValue, hescape, Bool.or_true]
        · rw [fill, fill_append_cons value hkept.1]
      | false =>
        rw [hu] at hps
        have hgrown : ∀ v ∈ run ++ [u], isSeparator v = false ∧ v ≠ 0x5c := by
          intro v hv
          rcases List.mem_append.mp hv with hv | hv
          · exact hrun v hv
          · obtain rfl := List.mem_singleton.mp hv
            exact ⟨hu, hslash⟩
        exact ih hgrown hps hrest

theorem Separated.weaken {ps : List PathPiece} (h : Separated true ps = true) : Separated false ps = true := by
  induction ps with
  | nil => rfl
  | cons piece ps ih =>
    cases piece with
    | unit u =>
      rw [Separated, Bool.true_and] at h
      rw [Separated, Bool.false_and]
      cases hu : isSeparator u with
      | true => rwa [hu] at h
      | false =>
        rw [hu] at h
        exact ih h
    | slot name => cases h

theorem values_eq_of_fill {value value' : Text → Text} {ps : List PathPiece}
    (hvalue : ∀ name, .slot name ∈ ps → IsValue (value name)) (hvalue' : ∀ name, .slot name ∈ ps → IsValue (value' name))
    (hunits : ∀ u, .unit u ∈ ps → u ≠ 0x5c) (hps : Separated false ps = true) {run : Text}
    (h : fill value run ps = fill value' run ps) : ∀ name, .slot name ∈ ps → value name = value' name := by
  induction ps generalizing run with
  | nil => exact fun _ hmem => absurd hmem List.not_mem_nil
  | cons piece ps ih =>
    have hrest : ∀ name, .slot name ∈ ps → IsValue (value name) := fun name hmem => hvalue name (List.mem_cons_of_mem _ hmem)
    have hrest' : ∀ name, .slot name ∈ ps → IsValue (value' name) :=
      fun name hmem => hvalue' name (List.mem_cons_of_mem _ hmem)
    have hplain : ∀ u, .unit u ∈ ps → u ≠ 0x5c := fun u hmem => hunits u (List.mem_cons_of_mem _ hmem)
    cases piece with
    | unit u =>
      intro name hname
      rw [Separated, Bool.false_and] at hps
      exact ih hrest hrest' hplain hps h name ((List.mem_cons.mp hname).resolve_left nofun)
    | slot own =>
      rw [Separated, Bool.not_false, Bool.true_and] at hps
      rw [fill, fill] at h
      have htail := List.append_cancel_left h
      have hown : value own = value' own := by
        have hin := (hvalue own List.mem_cons_self).inValue
        have hin' := (hvalue' own List.mem_cons_self).inValue
        rcases @fill_behind [] nofun _ hps hplain with ⟨text, hsame⟩ | ⟨text, u, tail, htext, hu, hsame⟩
        · rw [hsame, hsame] at htail
          exact List.append_cancel_right htail
        · rw [hsame, hsame, ← List.append_assoc, ← List.append_assoc] at htail
          have hall : ∀ {e}, (∀ v ∈ e, Modularity.inValue v = true) → ∀ v ∈ e ++ text, Modularity.inValue v = true :=
            fun he v hv => (List.mem_append.mp hv).elim (he v) (htext v)
          have hhead : ∀ t v, (u :: t).head? = some v → Modularity.inValue v = false := fun t v hv => Option.some.inj hv ▸ hu
          have hfront := (takeWhile_append_of_head (hall hin) (hhead (tail value))).1
          rw [htail, (takeWhile_append_of_head (hall hin') (hhead (tail value'))).1] at hfront
          exact (List.append_cancel_right hfront).symm
      rw [hown] at htail
      have hfill := List.append_cancel_left htail
      intro name hname
      rcases List.mem_cons.mp hname with heq | hname
      · obtain rfl := PathPiece.slot.inj heq
        exact hown
      · exact ih hrest hrest' hplain (Separated.weaken hps) hfill name hname

theorem properties_eq_of_pairs {keep : Nat → Bool} {args args' : CustomToolArgs} {names : List Text}
    (hnames : ∀ name ∈ names, 0x3d ∉ name) (hnodup : names.Nodup)
    (hvalue : ∀ name ∈ names, ∀ value value', property args name = some value → property args' name = some value' →
      percentEncode keep value.string = percentEncode keep value'.string → value = value')
    (h : names.filterMap (queryPair keep args) = names.filterMap (queryPair keep args')) :
    ∀ name ∈ names, property args name = property args' name := by
  have hsplit : ∀ {a b s t : Text}, 0x3d ∉ a → 0x3d ∉ b → a ++ 0x3d :: s = b ++ 0x3d :: t → a = b ∧ s = t := by
    intro a b s t ha hb heq
    have hfront : ∀ {c r : Text}, 0x3d ∉ c → (c ++ 0x3d :: r).takeWhile (· ≠ 0x3d) = c := @fun c r hc =>
      (takeWhile_append_of_head (p := fun u : UInt16 => decide (u ≠ 0x3d)) (b := 0x3d :: r)
        (fun u hu => decide_eq_true fun heq : u = 0x3d => hc (heq ▸ hu)) fun u hu => Option.some.inj hu ▸ rfl).1
    have hab : a = b := by rw [← hfront (r := s) ha, heq, hfront hb]
    subst hab
    exact ⟨rfl, (List.cons.inj (List.append_cancel_left heq)).2⟩
  have hnew : ∀ {own : Text} {names : List Text} {args : CustomToolArgs} {e : Text}, 0x3d ∉ own → (∀ name ∈ names, 0x3d ∉ name) →
      own ++ 0x3d :: e ∈ names.filterMap (queryPair keep args) → own ∈ names := by
    intro own names args e hown hnames hmem
    obtain ⟨name, hname, hpair⟩ := List.mem_filterMap.mp hmem
    obtain ⟨value, -, heq⟩ := Option.map_eq_some_iff.mp hpair
    exact (hsplit (hnames name hname) hown heq).1 ▸ hname
  induction names with
  | nil => exact fun _ hmem => absurd hmem List.not_mem_nil
  | cons own names ih =>
    obtain ⟨hown, hrest⟩ := List.forall_mem_cons.mp hnames
    obtain ⟨hfresh, hnodup⟩ := List.nodup_cons.mp hnodup
    have ih := ih hrest hnodup fun name hname => hvalue name (List.mem_cons_of_mem _ hname)
    cases hproperty : property args own with
    | none =>
      rw [List.filterMap_cons_none (by rw [queryPair, hproperty]; rfl)] at h
      cases hproperty' : property args' own with
      | none =>
        rw [List.filterMap_cons_none (by rw [queryPair, hproperty']; rfl)] at h
        exact List.forall_mem_cons.mpr ⟨hproperty.trans hproperty'.symm, ih h⟩
      | some value' =>
        rw [List.filterMap_cons_some (by rw [queryPair, hproperty']; rfl)] at h
        exact absurd (hnew hown hrest (h ▸ List.mem_cons_self)) hfresh
    | some value =>
      rw [List.filterMap_cons_some (by rw [queryPair, hproperty]; rfl)] at h
      cases hproperty' : property args' own with
      | none =>
        rw [List.filterMap_cons_none (by rw [queryPair, hproperty']; rfl)] at h
        exact absurd (hnew hown hrest (h ▸ List.mem_cons_self)) hfresh
      | some value' =>
        rw [List.filterMap_cons_some (by rw [queryPair, hproperty']; rfl), List.cons.injEq] at h
        have hsame := hvalue own List.mem_cons_self value value' hproperty hproperty' (hsplit hown hown h.1).2
        exact List.forall_mem_cons.mpr ⟨by rw [hproperty, hproperty', hsame], ih h.2⟩

theorem queryOf_text (items : List Text) :
    (queryOf items).elim [] (0x26 :: ·) = (items.filter (· ≠ [])).flatMap (0x26 :: ·) := by
  have hne : ∀ a ∈ items.filter (· ≠ []), a ≠ [] := fun a ha => of_decide_eq_true (List.mem_filter.mp ha).2
  rw [queryOf]
  generalize items.filter (· ≠ []) = kept at hne ⊢
  cases kept with
  | nil => rfl
  | cons a kept =>
    have hjoin := cons_intercalate (0x26 : UInt16) (List.cons_ne_nil a kept)
    rw [if_neg, Option.elim_some, hjoin]
    intro hnil
    rw [hnil, List.flatMap_cons, List.cons_append, List.cons.injEq] at hjoin
    exact hne a List.mem_cons_self (List.append_eq_nil_iff.mp hjoin.2.symm).1

theorem pairs_eq_of_queryOf {fixed : Text} {l l' : List Text} (hl : ∀ a ∈ l, a ≠ [] ∧ 0x26 ∉ a)
    (hl' : ∀ a ∈ l', a ≠ [] ∧ 0x26 ∉ a) (h : queryOf (fixed :: l) = queryOf (fixed :: l')) : l = l' := by
  have hkept : ∀ {l : List Text}, (∀ a ∈ l, a ≠ [] ∧ 0x26 ∉ a) → (fixed :: l).filter (· ≠ []) =
      [fixed].filter (· ≠ []) ++ l := by
    intro l hl
    have hself : l.filter (· ≠ []) = l := List.filter_eq_self.mpr fun a ha => decide_eq_true (hl a ha).1
    rw [← List.singleton_append, List.filter_append, hself]
  have htext := queryOf_text (fixed :: l)
  rw [h, queryOf_text, hkept hl, hkept hl', List.flatMap_append, List.flatMap_append] at htext
  exact (flatMap_cons_injective (fun a ha => (hl' a ha).2) (fun a ha => (hl a ha).2) (List.append_cancel_left htext)).symm

theorem fill_segments {value : Text → Text} {ps : List PathPiece} (hunits : ∀ u, .unit u ∈ ps → u ≠ 0x5c) :
    ((ps.splitOnP fun piece => match piece with
      | .unit u => isSlash u
      | .slot _ => false).map (fill value [])).flatMap (0x2f :: ·) = 0x2f :: fill value [] ps := by
  suffices hrun : ∀ run, ∃ first rest, (ps.splitOnP fun piece => match piece with
      | .unit u => isSlash u
      | .slot _ => false) = first :: rest ∧
        fill value run first ++ (rest.map (fill value [])).flatMap (0x2f :: ·) = fill value run ps by
    obtain ⟨first, rest, heq, hfill⟩ := hrun []
    rw [heq, List.map_cons, List.flatMap_cons, List.cons_append, hfill]
  induction ps with
  | nil => exact fun run => ⟨[], [], rfl, List.append_nil _⟩
  | cons piece ps ih =>
    intro run
    have ih := ih fun u hmem => hunits u (List.mem_cons_of_mem _ hmem)
    rw [List.splitOnP_cons_eq_if_modifyHead]
    cases piece with
    | unit u =>
      by_cases hu : isSlash u = true
      · rw [if_pos hu]
        have hslash : u = 0x2f := by simpa [isSlash, hunits u List.mem_cons_self] using hu
        obtain ⟨first, rest, heq, hfill⟩ := ih []
        refine ⟨[], _, rfl, ?_⟩
        rw [heq, List.map_cons, List.flatMap_cons, List.cons_append, hfill, hslash, fill, fill,
          fill_append_cons value (by decide)]
      · rw [if_neg hu]
        obtain ⟨first, rest, heq, hfill⟩ := ih (run ++ [u])
        exact ⟨.unit u :: first, rest, by rw [heq]; rfl, hfill⟩
    | slot name =>
      rw [if_neg Bool.false_ne_true]
      obtain ⟨first, rest, heq, hfill⟩ := ih []
      refine ⟨.slot name :: first, rest, by rw [heq]; rfl, ?_⟩
      rw [fill, fill, List.append_assoc, List.append_assoc, hfill]

theorem not_question_mem_fill {value : Text → Text} {ps : List PathPiece}
    (hvalue : ∀ name, .slot name ∈ ps → IsValue (value name)) (run : Text) : 0x3f ∉ fill value run ps := by
  have hrun : ∀ run : Text, 0x3f ∉ percentEncode isPathKept run := fun run hmem =>
    (mem_percentEncode (fun _ => isPathKept_lt) hmem).elim (fun hkept => absurd hkept.2 (by decide)) fun hescape =>
      absurd hescape (by decide)
  induction ps generalizing run with
  | nil => exact hrun run
  | cons piece ps ih =>
    have ih := ih fun name hmem => hvalue name (List.mem_cons_of_mem _ hmem)
    cases piece with
    | unit u => exact ih _
    | slot name =>
      rw [fill, List.mem_append, List.mem_append]
      rintro (hmem | hmem | hmem)
      · exact hrun run hmem
      · exact absurd (inValue_spec ((hvalue name List.mem_cons_self).inValue _ hmem)).2.2.1 (by decide)
      · exact ih _ hmem

section Address

variable {platform : Platform} {host : Text → Option Host} {tool : HttpGetTool} {parts : UrlParts}
  {args args' : CustomToolArgs} {url url' : Address}

/-- The values of a record are told by their encodings. -/
theorem property_eq_of_encoded {keep : Nat → Bool} (hplain : ∀ c, keep c = true → c < 0x80) (hpercent : keep 0x25 = false)
    (htool : Accepted platform tool parts) (htaken : Taken tool args) (htaken' : Taken tool args') {name : Text}
    (hname : name ∈ tool.params.map CustomToolParam.name) {value value' : ArgValue} (hvalue : property args name = some value)
    (hvalue' : property args' name = some value')
    (h : percentEncode keep value.string = percentEncode keep value'.string) : value = value' := by
  obtain ⟨p, hp, rfl⟩ := List.mem_map.mp hname
  obtain ⟨inPath, hgood⟩ := htool.params p hp
  have hown := htaken.valued p hp value hvalue
  have hown' := htaken'.valued p hp value' hvalue'
  exact string_injective hown hown'
    (percentEncode_injective hplain hpercent (argOf_spec hgood hown).2.2 (argOf_spec hgood hown').2.2 h)

theorem lookup_eq_of_href (hstd : platform.Standard host) (htool : Accepted platform tool parts)
    (hparts : splitUrl tool.url = some parts) (hpath : Fillable parts.path)
    (hseparated : Separated false (pieces parts.path) = true) (htaken : Taken tool args) (htaken' : Taken tool args')
    (h : customToolUrl platform args tool = .ok url) (h' : customToolUrl platform args' tool = .ok url')
    (hhref : url.href = url'.href) : ∀ name, args.lookup name = args'.lookup name := by
  obtain ⟨hvalues, read, hread, rfl⟩ := address_of_call hstd htool hparts hpath htaken h
  obtain ⟨hvalues', read', hread', rfl⟩ := address_of_call hstd htool hparts hpath htaken' h'
  obtain rfl : read = read' := Option.some.inj (hread.symm.trans hread')
  have hdeclared : ∀ name ∈ placeholdersIn parts.path, name ∈ tool.params.map CustomToolParam.name :=
    fun name hname => htool.declared name (List.mem_append_left _ hname)
  have hquery : ∀ name ∈ tool.query, name ∈ tool.params.map CustomToolParam.name :=
    fun name hname => htool.declared name (List.mem_append_right _ hname)
  have hunits : ∀ u, .unit u ∈ pieces parts.path.tail → u ≠ 0x5c := by
    obtain ⟨fragment, hwhole⟩ := (splitUrl_spec hparts).whole
    intro u hu
    refine (htool.clean u ?_).2
    rw [hwhole]
    simp only [List.mem_append]
    exact .inr (.inr (.inr (.inl (List.mem_of_mem_tail (mem_of_unit_mem hu)))))
  have htail : pieces parts.path = [] ∧ pieces parts.path.tail = [] ∨
      pieces parts.path = .unit 0x2f :: pieces parts.path.tail := by
    rcases (splitUrl_spec hparts).start with hnil | hhead
    · rw [hnil]
      exact .inl ⟨rfl, rfl⟩
    · obtain ⟨rest, hrest⟩ := List.head?_eq_some_iff.mp hhead
      rw [hrest]
      exact .inr (pieces_cons (by decide) rest)
  have hslots : ∀ name, .slot name ∈ pieces parts.path.tail → name ∈ placeholdersIn parts.path := by
    intro name hname
    refine mem_placeholdersIn.mpr ?_
    rcases htail with ⟨-, hnil⟩ | hcons
    · rw [hnil] at hname
      cases hname
    · exact hcons ▸ List.mem_cons_of_mem _ hname
  have hapart : Separated false (pieces parts.path.tail) = true := by
    rcases htail with ⟨-, hnil⟩ | hcons
    · rw [hnil]
      rfl
    · rwa [hcons] at hseparated
  have hfilled : ∀ name, .slot name ∈ pieces parts.path.tail → IsValue (encodedValue args name) :=
    fun name hname => hvalues name (hslots name hname)
  have hfilled' : ∀ name, .slot name ∈ pieces parts.path.tail → IsValue (encodedValue args' name) :=
    fun name hname => hvalues' name (hslots name hname)
  have hpathname : ∀ value : Text → Text, ((templateSegments parts.path).map (fill value [])).flatMap (0x2f :: ·) =
      0x2f :: fill value [] (pieces parts.path.tail) := fun value => fill_segments hunits
  have hquestion : ∀ {value : Text → Text}, (∀ name, .slot name ∈ pieces parts.path.tail → IsValue (value name)) →
      0x3f ∉ ((templateSegments parts.path).map (fill value [])).flatMap (0x2f :: ·) := by
    intro value hvalue
    rw [hpathname]
    exact List.not_mem_cons_of_ne_of_not_mem (by decide) (not_question_mem_fill hvalue [])
  obtain ⟨hpaths, hqueries⟩ := Address.parts_of_href hhref rfl rfl rfl (hquestion hfilled) (hquestion hfilled')
  have hslotValues : ∀ name ∈ placeholdersIn parts.path, property args name = property args' name := by
    intro name hname
    have hslot : .slot name ∈ pieces parts.path.tail := by
      have hmem := mem_placeholdersIn.mp hname
      rcases htail with ⟨hnil, -⟩ | hcons
      · rw [hnil] at hmem
        cases hmem
      · rw [hcons] at hmem
        exact (List.mem_cons.mp hmem).resolve_left nofun
    have hfill : fill (encodedValue args) [] (pieces parts.path.tail) = fill (encodedValue args') [] (pieces parts.path.tail) :=
      (List.cons.inj ((hpathname _).symm.trans (hpaths.trans (hpathname _)))).2
    have hencoded := values_eq_of_fill hfilled hfilled' hunits hapart hfill name hslot
    have hsome : ∀ {args : CustomToolArgs}, IsValue (encodedValue args name) →
        ∃ value, property args name = some value ∧ encodedValue args name = percentEncode isUnreserved value.string := by
      intro args hvalue
      cases hproperty : property args name with
      | none => exact absurd (by rw [encodedValue, hproperty]; rfl) hvalue.ne_nil
      | some value => exact ⟨value, rfl, by rw [encodedValue, hproperty]; rfl⟩
    obtain ⟨value, hvalue, heq⟩ := hsome (hvalues name hname)
    obtain ⟨value', hvalue', heq'⟩ := hsome (hvalues' name hname)
    rw [hvalue, hvalue', property_eq_of_encoded (fun _ => isUnreserved_lt) (by decide) htool htaken htaken'
      (hdeclared name hname) hvalue hvalue' (heq.symm.trans (hencoded.trans heq'))]
  have hqueryValues : ∀ name ∈ tool.query, property args name = property args' name := by
    have hunit : ∀ name ∈ tool.query, ∀ u ∈ name, u ≠ 0x26 ∧ u ≠ 0x3d := by
      intro name hname u hu
      have hspec := inValue_spec (toolName_unit (htool.toolName (hquery name hname)) u hu).1
      exact ⟨hspec.2.2.2.2.1, fun heq => absurd (heq ▸ hspec.2.2.2.2.2) (by decide)⟩
    have hkeep : ∀ c, isQueryValueKept c = true → c < 0x80 := fun c hc => isUnreserved_lt (Bool.and_eq_true_iff.mp hc).1
    have hpair : ∀ {args : CustomToolArgs}, ∀ a ∈ tool.query.filterMap (queryPair isQueryValueKept args), a ≠ [] ∧ 0x26 ∉ a := by
      intro args a ha
      obtain ⟨name, hname, heq⟩ := List.mem_filterMap.mp ha
      obtain ⟨value, -, rfl⟩ := Option.map_eq_some_iff.mp heq
      refine ⟨by simp, fun hmem => ?_⟩
      rcases List.mem_append.mp hmem with hmem | hmem
      · exact (hunit name hname _ hmem).1 rfl
      · rcases List.mem_cons.mp hmem with heq | hmem
        · cases heq
        · exact (mem_percentEncode hkeep hmem).elim (fun hkept => absurd hkept.2 (by decide)) fun hescape =>
            absurd hescape (by decide)
    refine properties_eq_of_pairs (fun name hname hmem => (hunit name hname _ hmem).2 rfl) htool.query_nodup ?_
      (pairs_eq_of_queryOf hpair hpair hqueries)
    exact fun name hname value value' hvalue hvalue' => property_eq_of_encoded hkeep (by decide) htool htaken htaken'
      (hquery name hname) hvalue hvalue'
  intro name
  by_cases hname : name ∈ tool.params.map CustomToolParam.name
  · have hused : name ∈ placeholdersIn parts.path ++ tool.query :=
      List.count_pos_iff.mp (htool.once name hname ▸ Nat.one_pos)
    rw [← htaken.property_eq htool hname, ← htaken'.property_eq htool hname]
    exact (List.mem_append.mp hused).elim (hslotValues name) (hqueryValues name)
  · rw [htaken.known name hname, htaken'.known name hname]

end Address

/-- A call of an accepted tool fetches the tool's origin, the segments of its path with each placeholder
replaced by the encoded value, its fixed query with one pair behind it for each supplied argument of the
query, and no fragment, where its path can be filled; where the placeholders are separated, two calls of
one address have the same arguments. -/
theorem customToolUrl_fills {platform : Platform} {host : Text → Option Host} (hstd : platform.Standard host)
    {requiresRepository : Bool} {tool : HttpGetTool}
    (hvalid : validateCustomTool platform requiresRepository (.httpGet tool) = []) {parts : UrlParts}
    (hparts : splitUrl tool.url = some parts) (hpath : Fillable parts.path) {args : CustomToolArgs}
    (hargs : customToolArgsSchema tool args = true) {url : Address} (h : customToolUrl platform args tool = .ok url) :
    (∃ read, host parts.authority = some read ∧ url.origin = units "https://" ++ (read.hostname ++ read.port)) ∧
      url.path = (templateSegments parts.path).map (fill (encodedValue args) []) ∧ tool.query.Nodup ∧
      url.query = queryOf (percentEncode isQueryKept (parts.query.getD []) ::
        tool.query.filterMap (queryPair isQueryValueKept args)) ∧ url.fragment = none ∧
      (Separated false (pieces parts.path) = true → ∀ args' url', customToolArgsSchema tool args' = true →
        customToolUrl platform args' tool = .ok url' → url.href = url'.href →
        ∀ name, args.lookup name = args'.lookup name) := by
  have htool := accepted_of_validate hstd hparts hvalid
  have htaken := taken_of_schema htool hargs
  obtain ⟨-, read, hread, heq⟩ := address_of_call hstd htool hparts hpath htaken h
  refine ⟨⟨read, hread, ?_⟩, ?_, htool.query_nodup, ?_, ?_, fun hseparated args' url' hargs' h' hhref => ?_⟩
  · rw [heq]
  · rw [heq]
  · rw [heq]
  · rw [heq]
  · exact lookup_eq_of_href hstd htool hparts hpath hseparated htaken (taken_of_schema htool hargs') h h' hhref

namespace Sample

/-- A parser that takes a host as it stands, as it does with lower-case names. -/
def host (authority : Text) : Option Host := some ⟨authority, []⟩

def platform : Platform where
  parse text := if units "https://" <+: text then readHttps host (text.drop 8) else none
  parseAt text base := if units "https://" <+: base then readHttps host (base.drop 8 ++ text) else none
  nfkc text := text
  hidden _ := false

theorem standard : platform.Standard host where
  parse_https rest := by
    show (if units "https://" <+: units "https://" ++ rest then readHttps host ((units "https://" ++ rest).drop 8)
      else none) = _
    rw [if_pos (List.prefix_append _ _)]
    rfl
  nfkc_plain _ _ := rfl

def param (name : String) : CustomToolParam := ⟨units name, units "d", true, .string 20⟩

def tool (url : String) (query params : List String) : HttpGetTool :=
  ⟨units "fetch", units "d", 1024, units url, query.map units, params.map param, 1000⟩

def args (entries : List (String × String)) : CustomToolArgs := entries.map fun e => (units e.1, .text (units e.2))

def plain : HttpGetTool := tool "https://h.example/v1/\x7ba\x7d?x=1" ["b"] ["a", "b"]

/-- Its last placeholder stands behind what could become the escape of a dot. -/
def climbing : HttpGetTool := tool "https://h.example/v1/\x7ba\x7d/.%2\x7bb\x7d" [] ["a", "b"]

/-- Nothing stands between its placeholders. -/
def joined : HttpGetTool := tool "https://h.example/v1/\x7ba\x7d\x7bb\x7d" [] ["a", "b"]

end Sample

theorem customToolUrl_fills_plain : ∃ url,
    customToolUrl Sample.platform (Sample.args [("a", "q r"), ("b", "'")]) Sample.plain = .ok url ∧
      url.path = [units "v1", units "q%20r"] ∧ url.query = some (units "x=1&b=%27") := by
  have hvalid : validateCustomTool Sample.platform false (.httpGet Sample.plain) = [] := rfl
  have hparts : splitUrl Sample.plain.url =
      some ⟨units "https", units "h.example", units "/v1/\x7ba\x7d", some (units "x=1"), none⟩ := rfl
  obtain ⟨url, hurl⟩ : ∃ url, customToolUrl Sample.platform (Sample.args [("a", "q r"), ("b", "'")]) Sample.plain = .ok url :=
    ⟨_, rfl⟩
  obtain ⟨-, hpath, -, hquery, -⟩ := customToolUrl_fills Sample.standard hvalid hparts ⟨by decide, by decide⟩ rfl hurl
  exact ⟨url, hurl, hpath, hquery⟩

/-- A value completes a dot segment with the fixed text in front of it, which takes away the segment before;
and two values with nothing between them may be cut in another place. -/
theorem customToolUrl_not_fills :
    (validateCustomTool Sample.platform false (.httpGet Sample.climbing) = [] ∧
      splitUrl Sample.climbing.url = some ⟨units "https", units "h.example", units "/v1/\x7ba\x7d/.%2\x7bb\x7d", none, none⟩ ∧
      (∀ segment ∈ (units "/v1/\x7ba\x7d/.%2\x7bb\x7d").splitOn 0x2f, segment ∉ dotSegments) ∧
      customToolArgsSchema Sample.climbing (Sample.args [("a", "q"), ("b", "e")]) = true ∧
      ∃ url, customToolUrl Sample.platform (Sample.args [("a", "q"), ("b", "e")]) Sample.climbing = .ok url ∧
        url.path = [units "v1", []] ∧ url.path ≠ (templateSegments (units "/v1/\x7ba\x7d/.%2\x7bb\x7d")).map
          (fill (encodedValue (Sample.args [("a", "q"), ("b", "e")])) [])) ∧
    validateCustomTool Sample.platform false (.httpGet Sample.joined) = [] ∧
      customToolArgsSchema Sample.joined (Sample.args [("a", "x"), ("b", "yz")]) = true ∧
      customToolArgsSchema Sample.joined (Sample.args [("a", "xy"), ("b", "z")]) = true ∧
      (Sample.args [("a", "x"), ("b", "yz")]).lookup (units "a") ≠
        (Sample.args [("a", "xy"), ("b", "z")]).lookup (units "a") ∧
      ∃ url, customToolUrl Sample.platform (Sample.args [("a", "x"), ("b", "yz")]) Sample.joined = .ok url ∧
        customToolUrl Sample.platform (Sample.args [("a", "xy"), ("b", "z")]) Sample.joined = .ok url :=
  ⟨⟨rfl, rfl, by decide, rfl, _, rfl, rfl, by decide⟩, rfl, rfl, rfl, by decide, _, rfl, rfl⟩

end Haive.Modularity

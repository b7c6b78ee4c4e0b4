import Haive.Lib.Json
import Haive.Lib.Surrogates

/-!
# `JSON.stringify`

The writer with an indent of two, and what the parser reads of a text that it wrote: the value again,
with the properties of each object in the order that the writer lists them in (`parse_stringify`).
How a number is written is a parameter.
-/

namespace Lib.Json

open Lib.Units

/-! ## Writing -/

def hexChar (n : Nat) : UInt16 := if n < 10 then (0x30 + n).toUInt16 else (0x57 + n).toUInt16

/-- Four hexadecimal digits. -/
def hex (u : UInt16) : List UInt16 :=
  [u.toNat / 4096, u.toNat / 256 % 16, u.toNat / 16 % 16, u.toNat % 16].map hexChar

/-- Units and the letters that stand for them behind a backslash. -/
def shortEscapes : List (UInt16 × UInt16) :=
  [(8, 0x62), (9, 0x74), (10, 0x6e), (12, 0x66), (13, 0x72), (0x22, 0x22), (0x5c, 0x5c)]

def shortEscape (u : UInt16) : Option UInt16 := shortEscapes.lookup u

def unitText (u : UInt16) : List UInt16 :=
  match shortEscape u with
  | some letter => [0x5c, letter]
  | none => if u < 0x20 || isSurrogate u then 0x5c :: 0x75 :: hex u else [u]

def stringBody : List UInt16 → List UInt16
  | [] => []
  | [u] => unitText u
  | u :: v :: rest =>
    if isLeading u && isTrailing v then u :: v :: stringBody rest else unitText u ++ stringBody (v :: rest)

def quoted (s : List UInt16) : List UInt16 := 0x22 :: (stringBody s ++ [0x22])

def newLine (depth : Nat) : List UInt16 := 10 :: List.replicate (2 * depth) 0x20

def container (opener closer : UInt16) (depth : Nat) : List (List UInt16) → List UInt16
  | [] => [opener, closer]
  | items =>
    opener :: (newLine (depth + 1) ++ ((0x2c :: newLine (depth + 1)).intercalate items ++ (newLine depth ++ [closer])))

/-- The order in which the properties of an object are listed: array indices first, by their value. -/
def propertyOrder {B : Type} (fields : List (List UInt16 × B)) : List (List UInt16 × B) :=
  (fields.filter fun field => (index field.1).isSome).insertionSort
      (fun a b => (index a.1).getD 0 ≤ (index b.1).getD 0) ++
    fields.filter fun field => (index field.1).isNone

def property (field : List UInt16 × List UInt16) : List UInt16 := quoted field.1 ++ 0x3a :: 0x20 :: field.2

section Writer

-- The text of a number: `null` where it is not finite.
variable (numberText : Float → List UInt16)

mutual

def stringifyAt (depth : Nat) : Json → List UInt16
  | .null => units "null"
  | .bool b => units (if b then "true" else "false")
  | .num n => numberText n
  | .str s => quoted s
  | .arr elems => container 0x5b 0x5d depth (stringifyElems (depth + 1) elems)
  | .obj fields => container 0x7b 0x7d depth ((propertyOrder (stringifyFields (depth + 1) fields)).map property)

def stringifyElems (depth : Nat) : List Json → List (List UInt16)
  | [] => []
  | j :: elems => stringifyAt depth j :: stringifyElems depth elems

def stringifyFields (depth : Nat) : List (List UInt16 × Json) → List (List UInt16 × List UInt16)
  | [] => []
  | (key, j) :: fields => (key, stringifyAt depth j) :: stringifyFields depth fields

end

/-- `JSON.stringify(j, null, 2)`. -/
def stringify (j : Json) : List UInt16 := stringifyAt numberText 0 j

theorem stringifyElems_eq (depth : Nat) (elems : List Json) :
    stringifyElems numberText depth elems = elems.map (stringifyAt numberText depth) := by
  induction elems with
  | nil => rfl
  | cons j elems ih => rw [stringifyElems, ih, List.map_cons]

theorem stringifyFields_eq (depth : Nat) (fields : List (List UInt16 × Json)) :
    stringifyFields numberText depth fields = fields.map (Prod.map id (stringifyAt numberText depth)) := by
  induction fields with
  | nil => rfl
  | cons field fields ih => rw [stringifyFields, ih, List.map_cons]; rfl

end Writer

/-- An object from its properties, one after the other. -/
def ofFields (fields : List (List UInt16 × Json)) : Json :=
  .obj (fields.foldl (fun done field => setField done field.1 field.2) [])

mutual

def listed : Json → Json
  | .arr elems => .arr (listedElems elems)
  | .obj fields => ofFields (propertyOrder (listedFields fields))
  | .null => .null
  | .bool b => .bool b
  | .num n => .num n
  | .str s => .str s

def listedElems : List Json → List Json
  | [] => []
  | j :: elems => listed j :: listedElems elems

def listedFields : List (List UInt16 × Json) → List (List UInt16 × Json)
  | [] => []
  | (key, j) :: fields => (key, listed j) :: listedFields fields

end

theorem listedElems_eq (elems : List Json) : listedElems elems = elems.map listed := by
  induction elems with
  | nil => rfl
  | cons j elems ih => rw [listedElems, ih, List.map_cons]

theorem listedFields_eq (fields : List (List UInt16 × Json)) :
    listedFields fields = fields.map (Prod.map id listed) := by
  induction fields with
  | nil => rfl
  | cons field fields ih => rw [listedFields, ih, List.map_cons]; rfl

/-- The order of the properties goes by their names alone. -/
theorem propertyOrder_map {A B : Type} (f : A → B) (fields : List (List UInt16 × A)) :
    propertyOrder (fields.map (Prod.map id f)) = (propertyOrder fields).map (Prod.map id f) := by
  rw [propertyOrder, propertyOrder, List.map_append, List.filter_map, List.filter_map,
    List.map_insertionSort _ (s := fun a b => (index a.1).getD 0 ≤ (index b.1).getD 0)]
  · rfl
  · exact fun _ _ _ _ => Iff.rfl

theorem propertyOrder_of_names {B : Type} {fields : List (List UInt16 × B)}
    (h : ∀ field ∈ fields, index field.1 = none) : propertyOrder fields = fields := by
  have hindices : fields.filter (fun field => (index field.1).isSome) = [] :=
    List.filter_eq_nil_iff.mpr fun field hfield => by simp [h field hfield]
  have hnames : fields.filter (fun field => (index field.1).isNone) = fields :=
    List.filter_eq_self.mpr fun field hfield => by simp [h field hfield]
  rw [propertyOrder, hindices, hnames]
  rfl

theorem setField_of_new {done : List (List UInt16 × Json)} {key : List UInt16} (h : key ∉ done.map Prod.fst)
    (j : Json) : setField done key j = done ++ [(key, j)] := by
  refine if_neg fun hany => h ?_
  obtain ⟨field, hfield, hkey⟩ := List.any_eq_true.mp hany
  exact List.mem_map.mpr ⟨field, hfield, by simpa using hkey⟩

theorem foldl_setField {done fields : List (List UInt16 × Json)} (h : ((done ++ fields).map Prod.fst).Nodup) :
    fields.foldl (fun done field => setField done field.1 field.2) done = done ++ fields := by
  induction fields generalizing done with
  | nil => rw [List.foldl_nil, List.append_nil]
  | cons field fields ih =>
    have hnew : field.1 ∉ done.map Prod.fst := by
      rw [List.map_append, List.map_cons] at h
      exact fun hmem => (List.nodup_append.mp h).2.2 _ hmem _ List.mem_cons_self rfl
    rw [List.append_cons] at h
    rw [List.foldl_cons, setField_of_new hnew, ih h, ← List.append_cons]

/-- Properties with names of their own are kept as they come. -/
theorem ofFields_of_nodup {fields : List (List UInt16 × Json)} (h : (fields.map Prod.fst).Nodup) :
    ofFields fields = .obj fields :=
  congrArg Json.obj (@foldl_setField [] fields h)

/-! ## Runs of the parser -/

/-- The text takes the machine from one state to the other. -/
def Runs (m : Machine) (text : List UInt16) (m' : Machine) : Prop := text.foldlM step m = some m'

theorem Runs.nil (m : Machine) : Runs m [] m := rfl

theorem Runs.cons {m m' m'' : Machine} {u : UInt16} {text : List UInt16} (hstep : step m u = some m')
    (h : Runs m' text m'') : Runs m (u :: text) m'' := by
  rw [Runs, List.foldlM_cons, hstep]
  exact h

theorem Runs.single {m m' : Machine} {u : UInt16} (hstep : step m u = some m') : Runs m [u] m' :=
  .cons hstep (.nil m')

theorem Runs.append {m m' m'' : Machine} {a b : List UInt16} (ha : Runs m a m') (hb : Runs m' b m'') :
    Runs m (a ++ b) m'' := by
  rw [Runs, List.foldlM_append, show a.foldlM step m = some m' from ha]
  exact hb

theorem runs_spaces {m : Machine} (h : ∀ u, isSpace u = true → step m u = some m) {text : List UInt16}
    (hspace : ∀ u ∈ text, isSpace u = true) : Runs m text m := by
  induction text with
  | nil => exact .nil m
  | cons u text ih =>
    exact .cons (h u (hspace u List.mem_cons_self)) (ih fun v hv => hspace v (List.mem_cons_of_mem _ hv))

theorem isSpace_newLine (depth : Nat) : ∀ u ∈ newLine depth, isSpace u = true := by
  intro u hu
  rcases List.mem_cons.mp hu with rfl | hu
  · decide
  · rw [(List.mem_replicate.mp hu).2]
    decide

/-! ## Strings -/

section Strings

variable (stack : List Frame) (name : Option (List (List UInt16 × Json)))

theorem hexDigit_hexChar : ∀ n < 16, hexDigit (hexChar n) = some n := by decide

theorem mem_of_shortEscape {u letter : UInt16} (h : shortEscape u = some letter) : (u, letter) ∈ shortEscapes := by
  obtain ⟨before, behind, heq, -⟩ := List.lookup_eq_some_iff.mp h
  rw [heq]
  exact List.mem_append_right _ List.mem_cons_self

theorem escaped_of_shortEscape {u letter : UInt16} (h : shortEscape u = some letter) :
    letter ≠ 0x75 ∧ escaped letter = some u := by
  have hall : shortEscapes.all (fun p => p.2 ≠ 0x75 && escaped p.2 = some p.1) = true := by decide
  simpa using List.all_eq_true.mp hall _ (mem_of_shortEscape h)

theorem ne_of_shortEscape {u : UInt16} (h : shortEscape u = none) : u ≠ 0x22 ∧ u ≠ 0x5c := by
  constructor <;> rintro rfl <;> exact absurd h (by decide)

theorem runs_plain (back : List UInt16) {u : UInt16} (h : shortEscape u = none) (hu : ¬ u < 0x20) :
    Runs ⟨stack, .string name back .none⟩ [u] ⟨stack, .string name (u :: back) .none⟩ := by
  obtain ⟨hquote, hback⟩ := ne_of_shortEscape h
  refine .single ?_
  unfold step
  dsimp only
  rw [if_neg hquote, if_neg hback, if_neg hu]

theorem runs_hex (back : List UInt16) (u : UInt16) : Runs ⟨stack, .string name back .none⟩ (0x5c :: 0x75 :: hex u)
    ⟨stack, .string name (u :: back) .none⟩ := by
  have hlt := u.toNat_lt
  have hdigit : ∀ (digits : List Nat) (n : Nat), n < 16 → step ⟨stack, .string name back (.hex digits)⟩ (hexChar n) =
      some (if digits.length = 3 then
        ⟨stack, .string name (((digits ++ [n]).foldl (fun n d => 16 * n + d) 0).toUInt16 :: back) .none⟩
      else ⟨stack, .string name back (.hex (digits ++ [n]))⟩) := by
    intro digits n hn
    unfold step
    dsimp only
    rw [hexDigit_hexChar n hn, Option.map_some]
  have hvalue : (16 * (16 * (16 * (16 * 0 + u.toNat / 4096) + u.toNat / 256 % 16) + u.toNat / 16 % 16) +
      u.toNat % 16).toUInt16 = u := by
    rw [show 16 * (16 * (16 * (16 * 0 + u.toNat / 4096) + u.toNat / 256 % 16) + u.toNat / 16 % 16) + u.toNat % 16 =
      u.toNat by omega]
    exact UInt16.ofNat_toNat
  refine .cons rfl (.cons rfl ?_)
  refine .cons (hdigit [] _ (by omega)) (.cons (hdigit _ _ (by omega)) (.cons (hdigit _ _ (by omega)) ?_))
  exact .single ((hdigit _ _ (by omega)).trans
    (congrArg (fun v => some (⟨stack, .string name (v :: back) .none⟩ : Machine)) hvalue))

theorem runs_unitText (back : List UInt16) (u : UInt16) : Runs ⟨stack, .string name back .none⟩ (unitText u)
    ⟨stack, .string name (u :: back) .none⟩ := by
  rw [unitText]
  split
  · next letter hletter =>
    obtain ⟨hne, hescaped⟩ := escaped_of_shortEscape hletter
    refine .cons rfl (.single ?_)
    unfold step
    dsimp only
    rw [if_neg hne, hescaped, Option.map_some]
  · next hnone =>
    split
    · exact runs_hex stack name back u
    · next hplain =>
      rw [Bool.or_eq_true, decide_eq_true_eq, not_or] at hplain
      exact runs_plain stack name back hnone hplain.1

theorem shortEscape_of_surrogate {u : UInt16} (h : isSurrogate u = true) : shortEscape u = none ∧ ¬ u < 0x20 := by
  constructor
  · cases hshort : shortEscape u with
    | none => rfl
    | some letter =>
      have hall : shortEscapes.all (fun p => ! isSurrogate p.1) = true := by decide
      have hnot := List.all_eq_true.mp hall _ (mem_of_shortEscape hshort)
      rw [h] at hnot
      cases hnot
  · intro hlt
    simp only [isSurrogate, isLeading, isTrailing, Bool.or_eq_true, Bool.and_eq_true, decide_eq_true_eq,
      UInt16.le_iff_toNat_le] at h
    have hlt' := UInt16.lt_iff_toNat_lt.mp hlt
    have h₁ : (0xd800 : UInt16).toNat = 0xd800 := rfl
    have h₂ : (0xdc00 : UInt16).toNat = 0xdc00 := rfl
    have h₃ : (0x20 : UInt16).toNat = 0x20 := rfl
    omega

theorem runs_stringBody (back s : List UInt16) : Runs ⟨stack, .string name back .none⟩ (stringBody s)
    ⟨stack, .string name (s.reverse ++ back) .none⟩ := by
  induction s using stringBody.induct generalizing back with
  | case1 => exact .nil _
  | case2 u =>
    rw [stringBody]
    exact runs_unitText stack name back u
  | case3 u v rest hpair ih =>
    rw [stringBody, if_pos hpair]
    rw [Bool.and_eq_true] at hpair
    have hu := shortEscape_of_surrogate (u := u) (by rw [isSurrogate, hpair.1]; rfl)
    have hv := shortEscape_of_surrogate (u := v) (by rw [isSurrogate, hpair.2, Bool.or_true])
    have hrest := ih (v :: u :: back)
    rw [List.reverse_cons, List.reverse_cons, List.append_assoc, List.append_assoc]
    exact (runs_plain stack name back hu.1 hu.2).append ((runs_plain stack name _ hv.1 hv.2).append hrest)
  | case4 u v rest hpair ih =>
    rw [stringBody, if_neg hpair, List.reverse_cons, List.append_assoc]
    exact (runs_unitText stack name back u).append (ih (u :: back))

end Strings

theorem runs_quoted_value (stack : List Frame) (s : List UInt16) :
    Runs ⟨stack, .value⟩ (quoted s) ⟨stack, .read (.str s)⟩ := by
  have hbody := runs_stringBody stack none [] s
  rw [List.append_nil] at hbody
  refine .cons rfl (hbody.append (.single ?_))
  show some (⟨stack, .read (.str s.reverse.reverse)⟩ : Machine) = _
  rw [List.reverse_reverse]

theorem runs_quoted_name (stack : List Frame) (done : List (List UInt16 × Json)) (mayClose : Bool) (s : List UInt16) :
    Runs ⟨stack, .name done mayClose⟩ (quoted s) ⟨stack, .colon done s⟩ := by
  have hbody := runs_stringBody stack (some done) [] s
  rw [List.append_nil] at hbody
  refine .cons rfl (hbody.append (.single ?_))
  show some (⟨stack, .colon done s.reverse.reverse⟩ : Machine) = _
  rw [List.reverse_reverse]

/-! ## Values -/

def endsBare (u : UInt16) : Bool := isSpace u || u = 0x2c || u = 0x5d || u = 0x7d

/-- A literal or a number that stands for the value. -/
structure Bare (text : List UInt16) (j : Json) : Prop where
  nonempty : text ≠ []
  plain : ∀ u ∈ text, endsBare u = false ∧ u ≠ 0x22 ∧ u ≠ 0x5b ∧ u ≠ 0x7b ∧ u ≠ 0x3a
  reads : bare text = some j

/-- The machine is behind a value. -/
inductive Behind (stack : List Frame) (j : Json) : Machine → Prop
  | read : Behind stack j ⟨stack, .read j⟩
  | bare {back : List UInt16} (h : bare back.reverse = some j) : Behind stack j ⟨stack, .bare back⟩

theorem Behind.step {stack : List Frame} {j : Json} {m : Machine} (h : Behind stack j m) {u : UInt16}
    (hu : endsBare u = true) : step m u = behind stack j u := by
  cases h with
  | read => rfl
  | bare h =>
    show (if endsBare u = true then _ else _) = _
    rw [if_pos hu, h, Option.bind_some]

theorem Behind.finish {j : Json} {m : Machine} (h : Behind [] j m) : finish m = some j := by
  cases h with
  | read => rfl
  | bare h => exact h

theorem runs_bare {text : List UInt16} {j : Json} (h : Bare text j) (stack : List Frame) :
    ∃ m, Runs ⟨stack, .value⟩ text m ∧ Behind stack j m := by
  have hpush : ∀ (text back : List UInt16),
      (∀ u ∈ text, endsBare u = false ∧ u ≠ 0x22 ∧ u ≠ 0x5b ∧ u ≠ 0x7b ∧ u ≠ 0x3a) →
      Runs ⟨stack, .bare back⟩ text ⟨stack, .bare (text.reverse ++ back)⟩ := by
    intro text
    induction text with
    | nil => exact fun back _ => .nil _
    | cons u text ih =>
      intro back hplain
      obtain ⟨hend, hquote, harr, hobj, hcolon⟩ := hplain u List.mem_cons_self
      rw [List.reverse_cons, List.append_assoc]
      refine .cons ?_ (ih (u :: back) fun v hv => hplain v (List.mem_cons_of_mem _ hv))
      unfold Json.step
      dsimp only
      rw [if_neg (by rw [show (isSpace u || u = 0x2c || u = 0x5d || u = 0x7d) = endsBare u from rfl, hend]; simp),
        if_neg (by simp [hquote, harr, hobj, hcolon])]
  cases htext : text with
  | nil => exact absurd htext h.nonempty
  | cons u rest =>
    obtain ⟨hend, hquote, harr, hobj, hcolon⟩ := h.plain u (htext ▸ List.mem_cons_self)
    refine ⟨⟨stack, .bare (rest.reverse ++ [u])⟩, .cons ?_ (hpush rest [u] fun v hv =>
      h.plain v (htext ▸ List.mem_cons_of_mem _ hv)), .bare ?_⟩
    · simp only [endsBare, Bool.or_eq_false_iff, decide_eq_false_iff_not] at hend
      unfold Json.step opening
      dsimp only
      rw [if_neg (by simp [hend.1.1.1]), if_neg harr, if_neg hobj, if_neg hquote,
        if_neg (by simp [hend.1.1.2, hend.1.2, hend.2, hcolon])]
    · rw [List.reverse_append, List.reverse_reverse, List.reverse_singleton, List.singleton_append, ← htext, h.reads]

inductive Printable (numberText : Float → List UInt16) : Json → Prop
  | null : Printable numberText .null
  | bool (b : Bool) : Printable numberText (.bool b)
  | num {n : Float} (h : Bare (numberText n) (.num n)) : Printable numberText (.num n)
  | str (s : List UInt16) : Printable numberText (.str s)
  | arr {elems : List Json} (h : ∀ j ∈ elems, Printable numberText j) : Printable numberText (.arr elems)
  | obj {fields : List (List UInt16 × Json)} (h : ∀ field ∈ fields, Printable numberText field.2) :
      Printable numberText (.obj fields)

def Reads (text : List UInt16) (j : Json) : Prop :=
  (∃ u ∈ text.head?, isSpace u = false ∧ u ≠ 0x5d) ∧
    ∀ stack, ∃ m, Runs ⟨stack, .value⟩ text m ∧ Behind stack j m

theorem Bare.reads' {text : List UInt16} {j : Json} (h : Bare text j) : Reads text j := by
  refine ⟨?_, runs_bare h⟩
  obtain ⟨u, rest, rfl⟩ := List.exists_cons_of_ne_nil h.nonempty
  have hend := (h.plain u List.mem_cons_self).1
  simp only [endsBare, Bool.or_eq_false_iff, decide_eq_false_iff_not] at hend
  exact ⟨u, rfl, hend.1.1.1, hend.1.2⟩

theorem reads_quoted (s : List UInt16) : Reads (quoted s) (.str s) :=
  ⟨⟨0x22, rfl, by decide, by decide⟩, fun stack => ⟨_, runs_quoted_value stack s, .read⟩⟩

theorem behind_newLine {stack : List Frame} {j : Json} {m : Machine} (h : Behind stack j m) (depth : Nat) :
    Runs m (newLine depth) ⟨stack, .read j⟩ := by
  refine .cons (h.step (by decide)) (runs_spaces (m := ⟨stack, .read j⟩) (fun u hu => if_pos hu) fun u hu => ?_)
  · rw [(List.mem_replicate.mp hu).2]
    decide

theorem newLine_value (stack : List Frame) (depth : Nat) : Runs ⟨stack, .value⟩ (newLine depth) ⟨stack, .value⟩ :=
  runs_spaces (m := ⟨stack, .value⟩) (fun _ hu => if_pos hu) (isSpace_newLine depth)

theorem newLine_name (stack : List Frame) (done : List (List UInt16 × Json)) (mayClose : Bool) (depth : Nat) :
    Runs ⟨stack, .name done mayClose⟩ (newLine depth) ⟨stack, .name done mayClose⟩ :=
  runs_spaces (m := ⟨stack, .name done mayClose⟩) (fun _ hu => if_pos hu) (isSpace_newLine depth)

/-! ## Arrays -/

theorem runs_elems (depth : Nat) (stack : List Frame) {texts : List (List UInt16)} {elems : List Json}
    (h : List.Forall₂ Reads texts elems) (hne : texts ≠ []) (done : List Json) :
    ∃ before last m, Runs ⟨.arr done :: stack, .value⟩ ((0x2c :: newLine depth).intercalate texts) m ∧
      Behind (.arr before :: stack) last m ∧ before ++ [last] = done ++ elems := by
  induction h generalizing done with
  | nil => exact absurd rfl hne
  | @cons text j texts elems htext hrest ih =>
    obtain ⟨m, hruns, hbehind⟩ := htext.2 (.arr done :: stack)
    cases hrest with
    | nil => exact ⟨done, j, m, by rwa [List.intercalate_singleton], hbehind, rfl⟩
    | @cons text' j' texts elems htext' hrest =>
      obtain ⟨before, last, m', hruns', hbehind', heq⟩ := ih (List.cons_ne_nil _ _) (done ++ [j])
      refine ⟨before, last, m', ?_, hbehind', by rw [heq, List.append_assoc]; rfl⟩
      rw [List.intercalate_cons_cons]
      have hcomma : step m 0x2c = some ⟨.arr (done ++ [j]) :: stack, .value⟩ := hbehind.step (by decide)
      exact .append (hruns.append (.cons hcomma (newLine_value _ depth))) hruns'

theorem reads_arr (depth : Nat) {texts : List (List UInt16)} {elems : List Json} (h : List.Forall₂ Reads texts elems) :
    Reads (container 0x5b 0x5d depth texts) (.arr elems) := by
  cases h with
  | nil => exact ⟨⟨0x5b, rfl, by decide, by decide⟩, fun stack => ⟨_, .cons rfl (.single rfl), .read⟩⟩
  | @cons text j texts elems htext hrest =>
    refine ⟨⟨0x5b, rfl, by decide, by decide⟩, fun stack => ?_⟩
    obtain ⟨before, last, m, hruns, hbehind, heq⟩ := runs_elems (depth + 1) stack (.cons htext hrest)
      (List.cons_ne_nil _ _) []
    have hstart : Runs ⟨stack, .element⟩ (newLine (depth + 1)) ⟨stack, .element⟩ :=
      runs_spaces (m := ⟨stack, .element⟩) (fun u hu => if_pos hu) (isSpace_newLine _)
    have hclose : Runs m (newLine depth ++ [0x5d]) ⟨stack, .read (.arr (before ++ [last]))⟩ :=
      (behind_newLine hbehind depth).append (.single rfl)
    -- The first unit of the first element opens it as it would behind a comma.
    have hfirst : Runs ⟨stack, .element⟩ ((0x2c :: newLine (depth + 1)).intercalate (text :: texts)) m := by
      obtain ⟨u, hu, hspace, hne⟩ := htext.1
      cases text with
      | nil => cases hu
      | cons v text =>
        obtain rfl : v = u := Option.some.inj hu
        have hcons : ∃ rest, (0x2c :: newLine (depth + 1)).intercalate ((v :: text) :: texts) = v :: rest := by
          cases texts with
          | nil => exact ⟨text, List.intercalate_singleton⟩
          | cons _ _ => exact ⟨_, List.intercalate_cons_cons⟩
        obtain ⟨rest, hcons⟩ := hcons
        rw [hcons] at hruns ⊢
        rw [Runs, List.foldlM_cons] at hruns ⊢
        have hstep : step ⟨stack, .element⟩ v = step ⟨.arr [] :: stack, .value⟩ v := by
          unfold step
          dsimp only
          rw [if_neg (by simp [hspace]), if_neg hne]
        rw [hstep]
        exact hruns
    refine ⟨⟨stack, .read (.arr (j :: elems))⟩, ?_, .read⟩
    have hvalue : before ++ [last] = j :: elems := heq
    rw [← hvalue]
    exact .cons rfl (hstart.append (hfirst.append hclose))

/-! ## Objects -/

def ReadsField (field : List UInt16 × List UInt16) (read : List UInt16 × Json) : Prop :=
  field.1 = read.1 ∧ Reads field.2 read.2

theorem runs_property {field : List UInt16 × List UInt16} {read : List UInt16 × Json} (h : ReadsField field read)
    (stack : List Frame) (done : List (List UInt16 × Json)) (mayClose : Bool) :
    ∃ m, Runs ⟨stack, .name done mayClose⟩ (property field) m ∧ Behind (.obj done read.1 :: stack) read.2 m := by
  obtain ⟨m, hruns, hbehind⟩ := h.2.2 (.obj done read.1 :: stack)
  refine ⟨m, ?_, hbehind⟩
  rw [property, h.1]
  exact (runs_quoted_name stack done mayClose read.1).append (.cons rfl (.cons rfl hruns))

theorem runs_fields (depth : Nat) (stack : List Frame) {fields : List (List UInt16 × List UInt16)}
    {reads : List (List UInt16 × Json)} (h : List.Forall₂ ReadsField fields reads) (hne : fields ≠ [])
    (done : List (List UInt16 × Json)) (mayClose : Bool) :
    ∃ before key last m, Runs ⟨stack, .name done mayClose⟩
        ((0x2c :: newLine depth).intercalate (fields.map property)) m ∧
      Behind (.obj before key :: stack) last m ∧
      setField before key last = reads.foldl (fun done field => setField done field.1 field.2) done := by
  induction h generalizing done mayClose with
  | nil => exact absurd rfl hne
  | @cons field read fields reads hfield hrest ih =>
    obtain ⟨m, hruns, hbehind⟩ := runs_property hfield stack done mayClose
    cases hrest with
    | nil => exact ⟨done, read.1, read.2, m, by rwa [List.map_singleton, List.intercalate_singleton], hbehind, rfl⟩
    | @cons field' read' fields reads hfield' hrest =>
      obtain ⟨before, key, last, m', hruns', hbehind', heq⟩ :=
        ih (List.cons_ne_nil _ _) (setField done read.1 read.2) false
      refine ⟨before, key, last, m', ?_, hbehind', heq⟩
      rw [List.map_cons, List.map_cons, List.intercalate_cons_cons]
      have hcomma : step m 0x2c = some ⟨stack, .name (setField done read.1 read.2) false⟩ :=
        hbehind.step (by decide)
      exact .append (hruns.append (.cons hcomma (newLine_name stack _ false depth))) hruns'

theorem reads_obj (depth : Nat) {fields : List (List UInt16 × List UInt16)} {reads : List (List UInt16 × Json)}
    (h : List.Forall₂ ReadsField fields reads) :
    Reads (container 0x7b 0x7d depth (fields.map property)) (ofFields reads) := by
  cases h with
  | nil => exact ⟨⟨0x7b, rfl, by decide, by decide⟩, fun stack => ⟨_, .cons rfl (.single rfl), .read⟩⟩
  | @cons field read fields reads hfield hrest =>
    refine ⟨⟨0x7b, rfl, by decide, by decide⟩, fun stack => ?_⟩
    obtain ⟨before, key, last, m, hruns, hbehind, heq⟩ := runs_fields (depth + 1) stack (.cons hfield hrest)
      (List.cons_ne_nil _ _) [] true
    have hclose : Runs m (newLine depth ++ [0x7d]) ⟨stack, .read (.obj (setField before key last))⟩ :=
      (behind_newLine hbehind depth).append (.single rfl)
    refine ⟨⟨stack, .read (ofFields (read :: reads))⟩, ?_, .read⟩
    rw [ofFields, ← heq]
    exact .cons rfl ((newLine_name stack [] true _).append (hruns.append hclose))

/-! ## Whole texts -/

section Whole

variable {numberText : Float → List UInt16}

theorem bare_literal {j : Json} {s : String} (hne : units s ≠ [])
    (hplain : (units s).all (fun u => ! endsBare u && u ≠ 0x22 && u ≠ 0x5b && u ≠ 0x7b && u ≠ 0x3a) = true)
    (h : bare (units s) = some j) : Reads (units s) j :=
  Bare.reads' ⟨hne, fun u hu => by simpa [and_assoc] using List.all_eq_true.mp hplain u hu, h⟩

theorem reads_stringify {j : Json} (h : Printable numberText j) (depth : Nat) :
    Reads (stringifyAt numberText depth j) (listed j) := by
  induction h generalizing depth with
  | null => exact bare_literal (by decide) (by decide) rfl
  | bool b =>
    cases b with
    | false => exact bare_literal (by decide) (by decide) rfl
    | true => exact bare_literal (by decide) (by decide) rfl
  | num h => exact h.reads'
  | str s => exact reads_quoted s
  | @arr elems h ih =>
    rw [stringifyAt, listed, stringifyElems_eq, listedElems_eq]
    refine reads_arr depth (List.forall₂_map_left_iff.mpr (List.forall₂_map_right_iff.mpr ?_))
    exact List.forall₂_same.mpr fun j hj => ih j hj (depth + 1)
  | @obj fields h ih =>
    rw [stringifyAt, listed, stringifyFields_eq, listedFields_eq, propertyOrder_map, propertyOrder_map]
    refine reads_obj depth (List.forall₂_map_left_iff.mpr (List.forall₂_map_right_iff.mpr ?_))
    refine List.forall₂_same.mpr fun field hfield => ⟨rfl, ih field ?_ (depth + 1)⟩
    rw [propertyOrder, List.mem_append, List.mem_insertionSort, List.mem_filter, List.mem_filter] at hfield
    exact hfield.elim And.left And.left

/-- A text that was written is read as the value that it was written from. -/
theorem parse_stringify {j : Json} (h : Printable numberText j) {tail : List UInt16}
    (htail : ∀ u ∈ tail, isSpace u = true) : parse (stringify numberText j ++ tail) = some (listed j) := by
  obtain ⟨m, hruns, hbehind⟩ := (reads_stringify h 0).2 []
  have htailRuns : ∃ m', Runs m tail m' ∧ Behind [] (listed j) m' := by
    cases tail with
    | nil => exact ⟨m, .nil m, hbehind⟩
    | cons u tail =>
      refine ⟨⟨[], .read (listed j)⟩, .cons ((hbehind.step ?_).trans (if_pos (htail u List.mem_cons_self))) ?_, .read⟩
      · rw [endsBare, htail u List.mem_cons_self]
        rfl
      · exact runs_spaces (m := ⟨[], .read (listed j)⟩) (fun _ hv => if_pos hv) fun v hv => htail v (List.mem_cons_of_mem _ hv)
  obtain ⟨m', hruns', hbehind'⟩ := htailRuns
  rw [parse, show (stringify numberText j ++ tail).foldlM step ⟨[], .value⟩ = some m' from hruns.append hruns',
    Option.bind_some, hbehind'.finish]

end Whole

end Lib.Json

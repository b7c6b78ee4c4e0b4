import Haive.Lib.JsonText

/-!
# The canonical form of a record file

`shared/src/project-state/canonical.ts`: keys sorted at every depth, an indent of two and a line feed
at the end. How a number is written is a parameter.
-/

namespace Haive.ProjectState

open Lib.Units
open Lib (Json)
open Lib.Json (listed stringify Printable index propertyOrder ofFields)

abbrev Text := List UInt16

abbrev JsonFields := List (Text × Json)

/-- `a[0] < b[0]` on names, by code units. -/
def nameBefore (a b : Text × Json) : Prop := a.1 ≤ b.1

instance : DecidableRel nameBefore := fun a b => inferInstanceAs (Decidable (a.1 ≤ b.1))

instance : Std.Total nameBefore := ⟨fun a b => List.le_total a.1 b.1⟩

instance : IsTrans (Text × Json) nameBefore := ⟨fun _ _ _ => List.le_trans⟩

mutual

/-- `sortKeys`. A write of `__proto__` sets no property of the copy. -/
def sortKeys : Json → Json
  | .arr elems => .arr (sortKeysElems elems)
  | .obj source =>
    .obj (((sortKeysFields source).filter fun field => field.1 ≠ units "__proto__").insertionSort nameBefore)
  | .null => .null
  | .bool b => .bool b
  | .num n => .num n
  | .str s => .str s

def sortKeysElems : List Json → List Json
  | [] => []
  | j :: elems => sortKeys j :: sortKeysElems elems

def sortKeysFields : JsonFields → JsonFields
  | [] => []
  | (key, j) :: fields => (key, sortKeys j) :: sortKeysFields fields

end

section Writer

variable (numberText : Float → Text)

def canonicalJson (value : Json) : Text := stringify numberText (sortKeys value) ++ units "\n"

/-- `sameValue`; `none` is undefined. -/
def sameValue : Option Json → Option Json → Bool
  | some a, some b => canonicalJson numberText a = canonicalJson numberText b
  | none, none => true
  | _, _ => false

theorem parse_canonicalJson {value : Json} (h : Printable numberText (sortKeys value)) :
    Json.parse (canonicalJson numberText value) = some (listed (sortKeys value)) :=
  Lib.Json.parse_stringify h fun u hu => by
    obtain rfl : u = 10 := List.mem_singleton.mp hu
    decide

end Writer

/-! ## Flat values -/

/-- An array of texts. -/
def texts (ts : List Text) : Json := .arr (ts.map .str)

/-- An object of texts. -/
def record (fields : List (Text × Text)) : Json := .obj (fields.map (Prod.map id .str))

theorem sortKeysElems_eq (elems : List Json) : sortKeysElems elems = elems.map sortKeys := by
  induction elems with
  | nil => rfl
  | cons j elems ih => rw [sortKeysElems, ih, List.map_cons]

theorem sortKeysFields_eq (fields : JsonFields) : sortKeysFields fields = fields.map (Prod.map id sortKeys) := by
  induction fields with
  | nil => rfl
  | cons field fields ih => rw [sortKeysFields, ih, List.map_cons]; rfl

theorem sortKeys_texts (ts : List Text) : sortKeys (texts ts) = texts ts := by
  rw [texts, sortKeys, sortKeysElems_eq, List.map_map]
  rfl

theorem listed_texts (ts : List Text) : listed (texts ts) = texts ts := by
  rw [texts, listed, Lib.Json.listedElems_eq, List.map_map]
  rfl

theorem printable_texts (numberText : Float → Text) (ts : List Text) : Printable numberText (texts ts) := by
  refine .arr fun j hj => ?_
  obtain ⟨t, -, rfl⟩ := List.mem_map.mp hj
  exact .str t

/-- The order of names on texts. -/
def keyBefore (a b : Text × Text) : Prop := a.1 ≤ b.1

instance : DecidableRel keyBefore := fun a b => inferInstanceAs (Decidable (a.1 ≤ b.1))

instance : Std.Total keyBefore := ⟨fun a b => List.le_total a.1 b.1⟩

instance : IsTrans (Text × Text) keyBefore := ⟨fun _ _ _ => List.le_trans⟩

theorem sortKeys_record {fields : List (Text × Text)} (h : ∀ field ∈ fields, field.1 ≠ units "__proto__") :
    sortKeys (record fields) = record (fields.insertionSort keyBefore) := by
  have hkeep : (fields.map (Prod.map id Json.str)).filter (fun field => field.1 ≠ units "__proto__") =
      fields.map (Prod.map id Json.str) := by
    refine List.filter_eq_self.mpr fun field hfield => ?_
    obtain ⟨field, hmem, rfl⟩ := List.mem_map.mp hfield
    exact decide_eq_true (h field hmem)
  have hsort : (fields.insertionSort keyBefore).map (Prod.map id Json.str) =
      (fields.map (Prod.map id Json.str)).insertionSort nameBefore :=
    List.map_insertionSort _ _ _ fields fun _ _ _ _ => Iff.rfl
  rw [record, sortKeys, sortKeysFields_eq, List.map_map, record, hsort]
  exact congrArg (fun fields => Json.obj (fields.insertionSort nameBefore)) hkeep

theorem listed_record {fields : List (Text × Text)} (hnodup : (fields.map Prod.fst).Nodup)
    (h : ∀ field ∈ fields, index field.1 = none) : listed (record fields) = record fields := by
  have hfields : (fields.map (Prod.map id Json.str)).map (Prod.map id listed) = fields.map (Prod.map id Json.str) := by
    rw [List.map_map]
    rfl
  rw [record, listed, Lib.Json.listedFields_eq, hfields, Lib.Json.propertyOrder_of_names,
    Lib.Json.ofFields_of_nodup]
  · rw [List.map_map]
    exact hnodup
  · intro field hfield
    obtain ⟨field, hmem, rfl⟩ := List.mem_map.mp hfield
    exact h field hmem

theorem printable_record (numberText : Float → Text) (fields : List (Text × Text)) :
    Printable numberText (record fields) := by
  refine .obj fun field hfield => ?_
  obtain ⟨field, -, rfl⟩ := List.mem_map.mp hfield
  exact .str field.2

end Haive.ProjectState

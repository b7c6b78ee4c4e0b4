import Haive.Lib.Json

/-!
# Form values

How the values of a form are checked and completed, as `shared/src/step-engine/schemas.ts` does it, with the
visibility of `shared/src/schemas/form.ts`. Visibility is judged on the values as they were submitted, and the
values that are stored have the defaults of the fields left out filled in. Stored values pass a second time,
unchanged, if and only if the defaults bring no required field without a value into view and no value was
submitted for a field that only displays (`Settles`, `stored_values_valid_iff`).
-/

namespace Haive.Steps.FormValues

open Lib.Units
open Lib (Json)

abbrev Text := List UInt16

/-! ## Forms -/

inductive Literal
  | str (s : Text)
  | bool (b : Bool)

def Literal.json : Literal → Json
  | str s => .str s
  | bool b => .bool b

/-- `current === literal`. -/
def Literal.is (literal : Literal) (current : Option Json) : Bool :=
  match literal, current with
  | str s, some (.str t) => s = t
  | bool a, some (.bool b) => a = b
  | _, _ => false

structure VisibleWhen where
  field : Text
  equals : Option Literal
  notEquals : Option Literal
  isIn : Option (List Text)

inductive LeafType
  | text (default : Option Text)
  | textarea (default : Option Text)
  | select (options : List Text) (default : Option Text)
  | multiSelect (options : List Text) (defaults : Option (List Text))
  | checkbox (default : Option Bool)
  | radio (options : List Text) (default : Option Text)
  | selectWithText (default : Option Text)
  | radioWithTextarea (default : Option Text)
  | directoryPicker
  | fileUpload
  | number (default min max : Option Float)
  | note
  | directoryTree (defaults : Option (List Text))
  | bundleComposer
  | globalKbStatus

structure LeafField where
  id : Text
  required : Bool
  /-- Only a textarea has it. -/
  hidden : Bool
  visibleWhen : Option VisibleWhen
  type : LeafType

inductive FormField
  | leaf (field : LeafField)
  | accordion (items : List (List LeafField))

structure FormSchema where
  fields : List FormField

/-! ## Checking -/

/-- What is wrong with a value; the text behind the id of its field. -/
inductive Problem
  | required
  | expectedString
  | invalidOption
  | expectedStrings
  | invalidOptionOf (value : Text)
  | expectedBoolean
  | expectedNumber
  | belowMin (min : Float)
  | aboveMax (max : Float)
  | expectedBundles
  | entryWithoutId

def Problem.text (showNumber : Float → Text) : Problem → Text
  | required => units "required"
  | expectedString => units "expected string"
  | invalidOption => units "invalid option"
  | expectedStrings => units "expected string[]"
  | invalidOptionOf value => units "invalid option " ++ value
  | expectedBoolean => units "expected boolean"
  | expectedNumber => units "expected number"
  | belowMin min => units "below min " ++ showNumber min
  | aboveMax max => units "above max " ++ showNumber max
  | expectedBundles => units "expected an array of bundles"
  | entryWithoutId => units "every entry needs a non-empty id"

structure Issue where
  field : Text
  problem : Problem

def Issue.text (showNumber : Float → Text) (issue : Issue) : Text :=
  issue.field ++ units ": " ++ issue.problem.text showNumber

abbrev Record := List (Text × Json)

def isFieldVisible (field : LeafField) (values : Record) : Bool :=
  if field.hidden then false
  else
    match field.visibleWhen with
    | none => true
    | some vw =>
      let current := values.lookup vw.field
      match vw.equals, vw.notEquals, vw.isIn with
      | some literal, _, _ => literal.is current
      | none, some literal, _ => ! literal.is current
      | none, none, some values =>
        match current with
        | some (.str s) => values.contains s
        | _ => false
      | none, none, none => true

/-- Neither absent nor `null` nor an empty text. -/
def present : Option Json → Bool
  | none | some .null | some (.str []) => false
  | some _ => true

def textDefault (default : Option Text) : Json :=
  match default with
  | some s => .str s
  | none => .null

def textsDefault (defaults : Option (List Text)) : Json := .arr ((defaults.getD []).map .str)

def defaultFor : LeafType → Json
  | .text default | .textarea default | .select _ default | .radio _ default
  | .selectWithText default | .radioWithTextarea default => textDefault default
  | .directoryPicker => .null
  | .multiSelect _ defaults | .directoryTree defaults => textsDefault defaults
  | .checkbox default => .bool (default.getD false)
  | .number default _ _ => (default.map .num).getD .null
  | .fileUpload => .null
  | .bundleComposer => .arr []
  | .note | .globalKbStatus => .null

def checkString (raw : Json) : Except Problem Json :=
  match raw with
  | .str _ => .ok raw
  | _ => .error .expectedString

def checkOption (options : List Text) (raw : Json) : Except Problem Json :=
  match raw with
  | .str s => if options.contains s then .ok raw else .error .invalidOption
  | _ => .error .expectedString

/-- The texts of an array that holds nothing else. -/
def strings? (raw : Json) : Option (List Text) := raw.arr?.bind fun elems => elems.mapM Json.str?

def checkStrings (raw : Json) : Except Problem Json :=
  match strings? raw with
  | some _ => .ok raw
  | none => .error .expectedStrings

def checkOptions (options : List Text) (raw : Json) : Except Problem Json :=
  match strings? raw with
  | none => .error .expectedStrings
  | some values =>
    match values.find? (! options.contains ·) with
    | some value => .error (.invalidOptionOf value)
    | none => .ok raw

def checkBoolean (raw : Json) : Except Problem Json :=
  match raw with
  | .bool _ => .ok raw
  | _ => .error .expectedBoolean

def checkNumber (min max : Option Float) (raw : Json) : Except Problem Json :=
  match raw with
  | .num n =>
    if n.isNaN then .error .expectedNumber
    else
      match min.filter (n < ·), max.filter (n > ·) with
      | some min, _ => .error (.belowMin min)
      | none, some max => .error (.aboveMax max)
      | none, none => .ok raw
  | _ => .error .expectedNumber

def entryId : Json → Option Text
  | .str s => some s
  | .obj fields => (fields.lookup (units "id")).bind Json.str?
  | _ => none

def checkBundles (raw : Json) : Except Problem Json :=
  match raw with
  | .arr entries => if entries.all fun entry => ((entryId entry).getD []) ≠ [] then .ok raw else .error .entryWithoutId
  | _ => .error .expectedBundles

/-- What is stored of a value that is there; `none`: nothing is. -/
def coercePresent (type : LeafType) (raw : Json) : Except Problem (Option Json) :=
  match type with
  | .text _ | .textarea _ | .selectWithText _ | .radioWithTextarea _ | .directoryPicker => (checkString raw).map some
  | .select options _ | .radio options _ => (checkOption options raw).map some
  | .multiSelect options _ => (checkOptions options raw).map some
  | .checkbox _ => (checkBoolean raw).map some
  | .number _ min max => (checkNumber min max raw).map some
  | .fileUpload => .ok (some raw)
  | .directoryTree _ => (checkStrings raw).map some
  | .bundleComposer => (checkBundles raw).map some
  | .note | .globalKbStatus => .ok none

def coerceField (field : LeafField) (raw : Option Json) (visible : Bool) : Except Issue (Option Json) :=
  match raw.filter fun value => present (some value) with
  | none =>
    if field.required && visible then .error ⟨field.id, .required⟩ else .ok (some (defaultFor field.type))
  | some value => (coercePresent field.type value).mapError (⟨field.id, ·⟩)

/-- `data` and `issues` so far. -/
abbrev Progress := Record × List Issue

def processLeaf (input : Record) (progress : Progress) (field : LeafField) : Progress :=
  match coerceField field (input.lookup field.id) (isFieldVisible field input) with
  | .ok (some value) => (Json.setField progress.1 field.id value, progress.2)
  | .ok none => progress
  | .error issue => (progress.1, progress.2 ++ [issue])

def processField (input : Record) (progress : Progress) : FormField → Progress
  | .accordion items => items.foldl (fun progress item => item.foldl (processLeaf input) progress) progress
  | .leaf field => processLeaf input progress field

inductive ValidationFailure
  | notAnObject
  | issues (issues : List Issue)

def validateFormValues (schema : FormSchema) (values : Json) : Except ValidationFailure Record :=
  match values with
  | .obj input =>
    let (data, issues) := schema.fields.foldl (processField input) ([], [])
    if issues.length > 0 then .error (.issues issues) else .ok data
  | _ => .error .notAnObject

/-! ## What a field contributes -/

def FormField.leaves : FormField → List LeafField
  | leaf field => [field]
  | accordion items => items.flatten

def FormSchema.leaves (schema : FormSchema) : List LeafField := schema.fields.flatMap FormField.leaves

/-- What one field makes of the submitted values. -/
def outcome (input : Record) (field : LeafField) : Except Issue (Option Json) :=
  coerceField field (input.lookup field.id) (isFieldVisible field input)

def stored (out : LeafField → Option Json) (fields : List LeafField) : Record :=
  fields.filterMap fun field => (out field).map (field.id, ·)

theorem processField_eq (input : Record) (progress : Progress) (field : FormField) :
    processField input progress field = field.leaves.foldl (processLeaf input) progress := by
  cases field with
  | leaf field => rfl
  | accordion items => exact List.foldl_flatten.symm

theorem foldl_processField (input : Record) (fields : List FormField) (progress : Progress) :
    fields.foldl (processField input) progress =
      (fields.flatMap FormField.leaves).foldl (processLeaf input) progress := by
  induction fields generalizing progress with
  | nil => rfl
  | cons field fields ih => rw [List.foldl_cons, processField_eq, ih, List.flatMap_cons, List.foldl_append]

theorem filterMap_cons_toList {α β : Type} (f : α → Option β) (x : α) (l : List α) :
    (x :: l).filterMap f = (f x).toList ++ l.filterMap f := by
  rw [List.filterMap_cons]
  cases f x <;> rfl

theorem stored_keys {out : LeafField → Option Json} {fields : List LeafField} {key : Text}
    (h : key ∈ (stored out fields).map Prod.fst) : key ∈ fields.map LeafField.id := by
  obtain ⟨entry, hentry, rfl⟩ := List.mem_map.mp h
  obtain ⟨field, hfield, hsome⟩ := List.mem_filterMap.mp hentry
  obtain ⟨value, -, rfl⟩ := Option.map_eq_some_iff.mp hsome
  exact List.mem_map_of_mem hfield

theorem lookup_stored {out : LeafField → Option Json} {fields : List LeafField} (hids : (fields.map LeafField.id).Nodup)
    {field : LeafField} (hfield : field ∈ fields) : (stored out fields).lookup field.id = out field := by
  induction fields with
  | nil => cases hfield
  | cons first fields ih =>
    obtain ⟨hnew, hids⟩ := List.nodup_cons.mp hids
    have hstored : stored out (first :: fields) = ((out first).map (first.id, ·)).toList ++ stored out fields :=
      filterMap_cons_toList _ first fields
    rw [hstored]
    rcases List.mem_cons.mp hfield with rfl | hmem
    · cases hout : out field with
      | none =>
        refine List.lookup_eq_none_iff.mpr fun entry hentry => ?_
        have hkey := stored_keys (List.mem_map_of_mem hentry)
        exact bne_iff_ne.mpr fun heq => hnew (heq ▸ hkey)
      | some value => exact List.lookup_cons_self
    · have hne : field.id ≠ first.id := fun heq => hnew (heq ▸ List.mem_map_of_mem hmem)
      cases out first with
      | none => exact ih hids hmem
      | some value =>
        rw [Option.map_some, Option.toList_some, List.singleton_append, List.lookup_cons, beq_false_of_ne hne]
        exact ih hids hmem

/-- What the field contributes to the data, if anything. -/
def valueOf (input : Record) (field : LeafField) : Option Json :=
  match outcome input field with
  | .ok value => value
  | .error _ => none

def issueOf (input : Record) (field : LeafField) : Option Issue :=
  match outcome input field with
  | .ok _ => none
  | .error issue => some issue

theorem foldl_processLeaf {input : Record} {fields : List LeafField} {data : Record} {issues : List Issue}
    (hids : (data.map Prod.fst ++ fields.map LeafField.id).Nodup) :
    fields.foldl (processLeaf input) (data, issues) =
      (data ++ stored (valueOf input) fields, issues ++ fields.filterMap (issueOf input)) := by
  induction fields generalizing data issues with
  | nil => rw [List.foldl_nil, stored, List.filterMap_nil, List.filterMap_nil, List.append_nil, List.append_nil]
  | cons field fields ih =>
    have hnew : field.id ∉ data.map Prod.fst := fun hmem =>
      (List.nodup_append.mp hids).2.2 field.id hmem field.id List.mem_cons_self rfl
    have hrest : (data.map Prod.fst ++ fields.map LeafField.id).Nodup :=
      hids.sublist ((List.sublist_cons_self _ _).append_left _)
    have hmore : ∀ value, ((data ++ [(field.id, value)]).map Prod.fst ++ fields.map LeafField.id).Nodup := fun value => by
      rw [List.map_append, List.append_assoc]
      exact hids
    have hstep : processLeaf input (data, issues) field =
        (data ++ ((valueOf input field).map (field.id, ·)).toList, issues ++ (issueOf input field).toList) := by
      rw [processLeaf, ← outcome, valueOf, issueOf]
      cases outcome input field with
      | error issue => simp
      | ok value =>
        cases value with
        | none => simp
        | some value =>
          have hput : Json.setField data field.id value = data ++ [(field.id, value)] := by
            refine if_neg fun hany => hnew ?_
            obtain ⟨entry, hentry, hkey⟩ := List.any_eq_true.mp hany
            exact List.mem_map.mpr ⟨entry, hentry, of_decide_eq_true hkey⟩
          simp [hput]
    have hids' : ((data ++ ((valueOf input field).map (field.id, ·)).toList).map Prod.fst ++
        fields.map LeafField.id).Nodup := by
      cases valueOf input field with
      | none => simpa using hrest
      | some value => exact hmore value
    rw [List.foldl_cons, hstep, ih hids', stored, stored, filterMap_cons_toList, filterMap_cons_toList, List.append_assoc,
      List.append_assoc]

def FormSchema.Distinct (schema : FormSchema) : Prop := (schema.leaves.map LeafField.id).Nodup

theorem validate_eq_ok_iff {schema : FormSchema} (hids : schema.Distinct) {input data : Record} :
    validateFormValues schema (.obj input) = .ok data ↔
      (∀ field ∈ schema.leaves, outcome input field = .ok (valueOf input field)) ∧
        data = stored (valueOf input) schema.leaves := by
  have hrun : schema.fields.foldl (processField input) ([], []) =
      (stored (valueOf input) schema.leaves, schema.leaves.filterMap (issueOf input)) := by
    rw [foldl_processField, ← FormSchema.leaves, foldl_processLeaf (by simpa [FormSchema.Distinct] using hids), List.nil_append, List.nil_append]
  have hissues : schema.leaves.filterMap (issueOf input) = [] ↔
      ∀ field ∈ schema.leaves, outcome input field = .ok (valueOf input field) := by
    rw [List.filterMap_eq_nil_iff]
    refine forall₂_congr fun field _ => ?_
    rw [issueOf, valueOf]
    cases outcome input field <;> simp
  rw [validateFormValues, hrun, ← hissues]
  dsimp only
  split
  · next hpos =>
    have hne : schema.leaves.filterMap (issueOf input) ≠ [] := List.length_pos_iff.mp hpos
    exact iff_of_false nofun fun h => hne h.1
  · next hpos =>
    have hnil : schema.leaves.filterMap (issueOf input) = [] := List.length_eq_zero_iff.mp (by omega)
    rw [Except.ok.injEq, hnil]
    exact ⟨fun h => ⟨rfl, h.symm⟩, fun h => h.2.symm⟩

/-! ## Stored values -/

def LeafType.displays : LeafType → Bool
  | .note | .globalKbStatus => true
  | _ => false

def LeafType.LegalDefault : LeafType → Prop
  | .select options default | .radio options default => ∀ value, default = some value → value ∈ options
  | .multiSelect options defaults => ∀ value ∈ defaults.getD [], value ∈ options
  | .number default min max => ∀ n, default = some n →
      n.isNaN = false ∧ (∀ m, min = some m → ¬ n < m) ∧ ∀ m, max = some m → ¬ m < n
  | _ => True

theorem coerceField_of_absent {raw : Option Json} (h : present raw = false) (field : LeafField) (visible : Bool) :
    coerceField field raw visible =
      if field.required && visible then .error ⟨field.id, .required⟩ else .ok (some (defaultFor field.type)) := by
  have hfilter : raw.filter (fun value => present (some value)) = none := by
    cases raw with
    | none => rfl
    | some value => rw [Option.filter_some, h]; rfl
  rw [coerceField, hfilter]

theorem coerceField_of_present {raw : Json} (h : present (some raw) = true) (field : LeafField) (visible : Bool) :
    coerceField field (some raw) visible = (coercePresent field.type raw).mapError (⟨field.id, ·⟩) := by
  rw [coerceField, Option.filter_some, h]
  rfl

/-- What is stored of a value is the value. -/
theorem coercePresent_eq {type : LeafType} (hdisplays : type.displays = false) {raw : Json} {out : Option Json}
    (h : coercePresent type raw = .ok out) : out = some raw := by
  have hmap : ∀ {check : Except Problem Json}, check.map some = .ok out → (∀ v, check = .ok v → v = raw) → out = some raw := by
    intro check h hsame
    cases check with
    | error problem => cases h
    | ok v => rw [← hsame v rfl]; exact (Except.ok.inj h).symm
  have hstring : ∀ v, checkString raw = .ok v → v = raw := by
    intro v h
    unfold checkString at h
    split at h <;> cases h
    rfl
  have hoption : ∀ options v, checkOption options raw = .ok v → v = raw := by
    intro options v h
    unfold checkOption at h
    split at h
    · split at h <;> cases h
      rfl
    · cases h
  cases type with
  | text default => exact hmap h hstring
  | textarea default => exact hmap h hstring
  | selectWithText default => exact hmap h hstring
  | radioWithTextarea default => exact hmap h hstring
  | directoryPicker => exact hmap h hstring
  | select options default => exact hmap h (hoption options)
  | radio options default => exact hmap h (hoption options)
  | multiSelect options defaults =>
    refine hmap h fun v h => ?_
    unfold checkOptions at h
    split at h
    · cases h
    · split at h <;> cases h
      rfl
  | checkbox default =>
    refine hmap h fun v h => ?_
    unfold checkBoolean at h
    split at h <;> cases h
    rfl
  | number default min max =>
    refine hmap h fun v h => ?_
    unfold checkNumber at h
    split at h
    · split at h
      · cases h
      · split at h <;> cases h
        rfl
    · cases h
  | fileUpload => exact (Except.ok.inj h).symm
  | directoryTree defaults =>
    refine hmap h fun v h => ?_
    unfold checkStrings at h
    split at h <;> cases h
    rfl
  | bundleComposer =>
    refine hmap h fun v h => ?_
    unfold checkBundles at h
    split at h
    · split at h <;> cases h
      rfl
    · cases h
  | note => cases hdisplays
  | globalKbStatus => cases hdisplays

theorem strings?_texts (texts : List Text) : strings? (.arr (texts.map .str)) = some texts := by
  show (texts.map Json.str).mapM Json.str? = some texts
  induction texts with
  | nil => rfl
  | cons text texts ih => rw [List.map_cons, List.mapM_cons, ih]; rfl

/-- A legal default passes its own check. -/
theorem coercePresent_default {type : LeafType} (hlegal : type.LegalDefault)
    (h : present (some (defaultFor type)) = true) : coercePresent type (defaultFor type) = .ok (some (defaultFor type)) := by
  have htext : ∀ {default : Option Text}, present (some (textDefault default)) = true →
      checkString (textDefault default) = .ok (textDefault default) := by
    intro default h
    cases default with
    | none => cases h
    | some text => rfl
  have hoption : ∀ {options : List Text} {default : Option Text}, (∀ value, default = some value → value ∈ options) →
      present (some (textDefault default)) = true →
      checkOption options (textDefault default) = .ok (textDefault default) := by
    intro options default hlegal h
    cases default with
    | none => cases h
    | some text => exact if_pos (List.contains_iff_mem.mpr (hlegal text rfl))
  have hsome : ∀ {check : Except Problem Json}, check = .ok (defaultFor type) →
      check.map some = .ok (some (defaultFor type)) := by
    rintro check rfl
    rfl
  cases type with
  | text default => exact hsome (htext h)
  | textarea default => exact hsome (htext h)
  | selectWithText default => exact hsome (htext h)
  | radioWithTextarea default => exact hsome (htext h)
  | directoryPicker => cases h
  | select options default => exact hsome (hoption hlegal h)
  | radio options default => exact hsome (hoption hlegal h)
  | multiSelect options defaults =>
    refine hsome ?_
    have hnone : (defaults.getD []).find? (! options.contains ·) = none := by
      refine List.find?_eq_none.mpr fun value hvalue => ?_
      simp [hlegal value hvalue]
    rw [defaultFor, textsDefault, checkOptions, strings?_texts]
    dsimp only
    rw [hnone]
  | checkbox default => rfl
  | number default min max =>
    cases default with
    | none => cases h
    | some n =>
      obtain ⟨hnan, hmin, hmax⟩ := hlegal n rfl
      have hmin' : min.filter (fun m => decide (n < m)) = none := by
        rw [Option.filter_eq_none_iff]
        exact fun m hm => by simpa using hmin m hm
      have hmax' : max.filter (fun m => decide (n > m)) = none := by
        rw [Option.filter_eq_none_iff]
        exact fun m hm => by simpa using hmax m hm
      refine hsome ?_
      show checkNumber min max (.num n) = .ok (.num n)
      rw [checkNumber, if_neg (Bool.eq_false_iff.mp hnan), hmin', hmax']
  | fileUpload => rfl
  | directoryTree defaults =>
    refine hsome ?_
    rw [defaultFor, textsDefault, checkStrings, strings?_texts]
  | bundleComposer => rfl
  | note => cases h
  | globalKbStatus => cases h

/-- A second check of what was stored; the field may be visible now. -/
theorem outcome_again {field : LeafField} (hlegal : field.type.LegalDefault) {raw out : Option Json} {visible : Bool}
    (h : coerceField field raw visible = .ok out) (visible' : Bool) : coerceField field out visible' = .ok out ↔
      (field.type.displays = true → present raw = false) ∧ (field.required = true → visible' = true → present out = true) := by
  have habsent : ∀ {value : Option Json}, present value = false → (coerceField field value visible' = .ok out ↔
      ¬ (field.required = true ∧ visible' = true) ∧ out = some (defaultFor field.type)) := by
    intro value hvalue
    rw [coerceField_of_absent hvalue, ← Bool.and_eq_true]
    split
    · next hmissing => exact iff_of_false nofun fun h => h.1 hmissing
    · next hmissing => exact ⟨fun h => ⟨hmissing, (Except.ok.inj h).symm⟩, fun h => by rw [h.2]⟩
  cases hraw : present raw with
  | true =>
    obtain ⟨value, rfl⟩ : ∃ value, raw = some value := by
      cases raw with
      | none => cases hraw
      | some value => exact ⟨value, rfl⟩
    rw [coerceField_of_present hraw] at h
    have hpresent : coercePresent field.type value = .ok out := by
      cases hout : coercePresent field.type value with
      | error problem => rw [hout] at h; cases h
      | ok out' => rw [hout] at h; exact congrArg _ (Except.ok.inj h)
    cases hdisplays : field.type.displays with
    | true =>
      have hnone : out = none := by
        cases htype : field.type <;> rw [htype] at hdisplays hpresent <;> cases hdisplays <;>
          exact (Except.ok.inj hpresent).symm
      subst hnone
      exact iff_of_false (fun hagain => nomatch ((habsent rfl).mp hagain).2) fun hboth => nomatch hboth.1 rfl
    | false =>
      obtain rfl := coercePresent_eq hdisplays hpresent
      rw [coerceField_of_present hraw, hpresent]
      exact iff_of_true rfl ⟨nofun, fun _ _ => hraw⟩
  | false =>
    rw [coerceField_of_absent hraw] at h
    split at h
    · cases h
    · obtain rfl := (Except.ok.inj h).symm
      cases hdefault : present (some (defaultFor field.type)) with
      | true =>
        rw [coerceField_of_present hdefault, coercePresent_default hlegal hdefault]
        exact iff_of_true rfl ⟨fun _ => rfl, fun _ _ => rfl⟩
      | false =>
        rw [habsent hdefault]
        constructor
        · rintro ⟨hhidden, -⟩
          exact ⟨fun _ => rfl, fun hrequired hvisible => absurd ⟨hrequired, hvisible⟩ hhidden⟩
        · rintro ⟨-, hshown⟩
          exact ⟨fun hboth => Bool.false_ne_true (hshown hboth.1 hboth.2), rfl⟩

def filledValue (input : Record) (field : LeafField) : Json :=
  ((input.lookup field.id).filter fun value => present (some value)).getD (defaultFor field.type)

def filled (schema : FormSchema) (input : Record) : Record := schema.leaves.map fun field => (field.id, filledValue input field)

/-- Nothing was submitted for a field that only displays, and a required field that is visible once the
defaults of the fields left out are filled in has a value. -/
structure Settles (schema : FormSchema) (input : Record) : Prop where
  displays : ∀ field ∈ schema.leaves, field.type.displays = true → present (input.lookup field.id) = false
  required : ∀ field ∈ schema.leaves, field.required = true → isFieldVisible field (filled schema input) = true →
    present (some (filledValue input field)) = true

theorem outcome_filled {input : Record} {field : LeafField} {out : Option Json} (h : outcome input field = .ok out)
    (hdisplays : field.type.displays = true → present (input.lookup field.id) = false) :
    out = some (filledValue input field) := by
  rw [outcome] at h
  rw [filledValue]
  cases hraw : present (input.lookup field.id) with
  | true =>
    obtain ⟨value, hvalue⟩ : ∃ value, input.lookup field.id = some value := by
      cases hvalue : input.lookup field.id with
      | none => rw [hvalue] at hraw; cases hraw
      | some value => exact ⟨value, rfl⟩
    have hshown : field.type.displays = false := by
      rw [Bool.eq_false_iff]
      intro htrue
      rw [hdisplays htrue] at hraw
      cases hraw
    rw [hvalue] at h hraw ⊢
    rw [coerceField_of_present hraw] at h
    cases hout : coercePresent field.type value with
    | error problem => rw [hout] at h; cases h
    | ok out' =>
      rw [hout, coercePresent_eq hshown hout] at h
      have hkept : (some value).filter (fun value => present (some value)) = some value := Option.filter_some_pos hraw
      rw [hkept]
      exact (Except.ok.inj h).symm
  | false =>
    rw [coerceField_of_absent hraw] at h
    have hfilter : (input.lookup field.id).filter (fun value => present (some value)) = none := by
      rw [Option.filter_eq_none_iff]
      intro value hvalue
      rw [← hvalue, hraw]
      exact Bool.false_ne_true
    split at h
    · cases h
    · rw [hfilter]
      exact (Except.ok.inj h).symm

/-- The stored values pass again, unchanged, with a value in every required field that is visible among them,
if and only if the submitted values settle. -/
theorem stored_values_valid_iff {schema : FormSchema} (hids : schema.Distinct)
    (hlegal : ∀ field ∈ schema.leaves, field.type.LegalDefault) {input data : Record}
    (h : validateFormValues schema (.obj input) = .ok data) :
    (validateFormValues schema (.obj data) = .ok data ∧
      ∀ field ∈ schema.leaves, field.required = true → isFieldVisible field data = true →
        present (data.lookup field.id) = true) ↔ Settles schema input := by
  obtain ⟨hout, rfl⟩ := (validate_eq_ok_iff hids).mp h
  have hlookup : ∀ field ∈ schema.leaves, (stored (valueOf input) schema.leaves).lookup field.id = valueOf input field :=
    fun field hfield => lookup_stored hids hfield
  have hagain : validateFormValues schema (.obj (stored (valueOf input) schema.leaves)) =
        .ok (stored (valueOf input) schema.leaves) ↔ ∀ field ∈ schema.leaves,
      (field.type.displays = true → present (input.lookup field.id) = false) ∧
      (field.required = true → isFieldVisible field (stored (valueOf input) schema.leaves) = true →
        present (valueOf input field) = true) := by
    have hsame : (∀ field ∈ schema.leaves, outcome (stored (valueOf input) schema.leaves) field = .ok (valueOf input field)) ↔
        ∀ field ∈ schema.leaves, (field.type.displays = true → present (input.lookup field.id) = false) ∧
          (field.required = true → isFieldVisible field (stored (valueOf input) schema.leaves) = true →
            present (valueOf input field) = true) := by
      refine forall₂_congr fun field hfield => ?_
      rw [outcome, hlookup field hfield]
      exact outcome_again (hlegal field hfield) (hout field hfield) _
    rw [validate_eq_ok_iff hids, ← hsame]
    constructor
    · rintro ⟨hpass, hdata⟩ field hfield
      have hvalue : valueOf (stored (valueOf input) schema.leaves) field = valueOf input field := by
        have hself := @lookup_stored (valueOf (stored (valueOf input) schema.leaves)) _ hids _ hfield
        rw [← hdata, hlookup field hfield] at hself
        exact hself.symm
      rw [← hvalue]
      exact hpass field hfield
    · intro hpass
      have hvalue : ∀ field ∈ schema.leaves, valueOf (stored (valueOf input) schema.leaves) field = valueOf input field := by
        intro field hfield
        rw [valueOf, hpass field hfield]
      refine ⟨fun field hfield => (hvalue field hfield) ▸ hpass field hfield, ?_⟩
      exact List.filterMap_congr fun field hfield => by rw [hvalue field hfield]
  have hfilled : (∀ field ∈ schema.leaves, field.type.displays = true → present (input.lookup field.id) = false) →
      (∀ field ∈ schema.leaves, valueOf input field = some (filledValue input field)) ∧
        stored (valueOf input) schema.leaves = filled schema input := by
    intro hdisplays
    have hvalue : ∀ field ∈ schema.leaves, valueOf input field = some (filledValue input field) := fun field hfield =>
      outcome_filled (hout field hfield) (hdisplays field hfield)
    refine ⟨hvalue, ?_⟩
    rw [stored, filled, ← List.filterMap_eq_map]
    exact List.filterMap_congr fun field hfield => by rw [hvalue field hfield]; rfl
  constructor
  · rintro ⟨hpass, -⟩
    have hall := hagain.mp hpass
    have hdisplays := fun field hfield => (hall field hfield).1
    obtain ⟨hvalue, hdata⟩ := hfilled hdisplays
    refine ⟨hdisplays, fun field hfield hrequired hvisible => ?_⟩
    rw [← hvalue field hfield]
    exact (hall field hfield).2 hrequired (hdata ▸ hvisible)
  · rintro ⟨hdisplays, hrequired⟩
    obtain ⟨hvalue, hdata⟩ := hfilled hdisplays
    have hpresent : ∀ field ∈ schema.leaves, field.required = true →
        isFieldVisible field (stored (valueOf input) schema.leaves) = true → present (valueOf input field) = true := by
      intro field hfield hreq hvisible
      rw [hvalue field hfield]
      exact hrequired field hfield hreq (hdata ▸ hvisible)
    refine ⟨hagain.mpr fun field hfield => ⟨hdisplays field hfield, hpresent field hfield⟩, fun field hfield hreq hvisible => ?_⟩
    rw [hlookup field hfield]
    exact hpresent field hfield hreq hvisible

namespace Sample

/-- A checkbox that is ticked by default, and the text that is required where it is ticked. -/
def gate : FormSchema where
  fields :=
    [.leaf ⟨units "push", false, false, none, .checkbox (some true)⟩,
      .accordion [[⟨units "remoteUrl", true, false, some ⟨units "push", some (.bool true), none, none⟩, .text none⟩]]]

theorem gate_distinct : gate.Distinct := by
  show [units "push", units "remoteUrl"].Nodup
  decide

theorem gate_legal : ∀ field ∈ gate.leaves, field.type.LegalDefault := by
  intro field hfield
  rcases List.mem_cons.mp hfield with rfl | hfield
  · trivial
  · rw [List.mem_singleton.mp hfield]
    trivial

def declined : Record := [(units "push", .bool false)]

theorem gate_settles : Settles gate declined where
  displays := by
    intro field hfield hdisplays
    rcases List.mem_cons.mp hfield with rfl | hfield
    · cases hdisplays
    · rw [List.mem_singleton.mp hfield] at hdisplays
      cases hdisplays
  required := by
    intro field hfield hrequired hvisible
    rcases List.mem_cons.mp hfield with rfl | hfield
    · cases hrequired
    · rw [List.mem_singleton.mp hfield] at hvisible
      cases hvisible

end Sample

theorem stored_values_valid_iff_declined :
    validateFormValues Sample.gate (.obj Sample.declined) = .ok (Sample.declined ++ [(units "remoteUrl", .null)]) ∧
      validateFormValues Sample.gate (.obj (Sample.declined ++ [(units "remoteUrl", .null)])) =
        .ok (Sample.declined ++ [(units "remoteUrl", .null)]) :=
  ⟨rfl, ((@stored_values_valid_iff _ Sample.gate_distinct Sample.gate_legal Sample.declined _ rfl).mpr
    Sample.gate_settles).1⟩

/-- Submitted with nothing, the form is stored with the box ticked and is refused the next time. -/
theorem stored_values_refused : Sample.gate.Distinct ∧ (∀ field ∈ Sample.gate.leaves, field.type.LegalDefault) ∧
    validateFormValues Sample.gate (.obj []) = .ok [(units "push", .bool true), (units "remoteUrl", .null)] ∧
    validateFormValues Sample.gate (.obj [(units "push", .bool true), (units "remoteUrl", .null)]) =
      .error (.issues [⟨units "remoteUrl", .required⟩]) :=
  ⟨Sample.gate_distinct, Sample.gate_legal, rfl, rfl⟩

end Haive.Steps.FormValues

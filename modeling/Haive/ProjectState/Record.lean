import Haive.Lib.Table
import Haive.Lib.Utf8
import Haive.ProjectState.Settings

/-!
# The project state record

The record of `shared/src/project-state` (`record.ts`), the names of its files (`names.ts`, `raw-text.ts`) and
`normalizeProjectState` of `codec.ts`. The hash that keeps two names apart is a parameter.
-/

namespace Haive.ProjectState

open Lib.Units
open Lib (Json Table)

/-! ## The record -/

structure ProjectStateClaim where
  path : Text
  templateId : Text
  kind : Text
  schemaVersion : Nat
  templateHash : Text
  writtenHash : Text
  haiveVersion : Text

structure ProjectStateBundle where
  source : Text
  name : Text

/-- An object is the list of its properties, no name twice. -/
structure ProjectStateRecord where
  environment : Option JsonFields
  render : Option JsonFields
  cli : List Text
  settings : JsonFields
  claims : List ProjectStateClaim
  bundles : List ProjectStateBundle

def emptyProjectState : ProjectStateRecord := ⟨none, none, [], [], [], []⟩

def ProjectStateClaim.json (c : ProjectStateClaim) : Json :=
  .obj
    [(units "path", .str c.path), (units "templateId", .str c.templateId), (units "kind", .str c.kind),
      (units "schemaVersion", .num (Float.ofNat c.schemaVersion)), (units "templateHash", .str c.templateHash),
      (units "writtenHash", .str c.writtenHash), (units "haiveVersion", .str c.haiveVersion)]

def ProjectStateBundle.json (b : ProjectStateBundle) : Json :=
  .obj [(units "source", .str b.source), (units "name", .str b.name)]

/-! ## Names -/

def TEXT_SETTINGS : List Text := [units "agent-rules"]

def SET_SETTINGS : List Text := [units "scope-exclude-globs"]

def RENDER_SET_KEYS : List Text := [units "lspLanguages"]

def REVIEW_WATERMARK_SETTING : Text := units "review-watermarks"

def ENVIRONMENT_UNIT : Text := units "project/environment.json"

def RENDER_UNIT : Text := units "project/render.json"

attribute [local instance] lawfulBEq_units in
def settingFileName (name : Text) : Text :=
  units "settings/" ++ name ++ if name ∈ TEXT_SETTINGS then units ".md" else units ".json"

def SLUG_MAX_BYTES : Nat := 180

def byteLength (text : Text) : Nat := (bytes text).length

def slugPrefix (out : Text) : List Text → Text
  | [] => out
  | ch :: rest => if SLUG_MAX_BYTES < byteLength (out ++ ch) then out else slugPrefix (out ++ ch) rest

/-- The code points of a text, each as its own text; half a pair is one. -/
def points : Text → List Text
  | u :: v :: rest =>
    if isLeading u && isTrailing v then [u, v] :: points rest
    else [u] :: points (v :: rest)
  | [u] => [[u]]
  | [] => []

def boundedSlug (slug : Text) : Text := if byteLength slug ≤ SLUG_MAX_BYTES then slug else slugPrefix [] (points slug)

/-- The segments of the path without leading dots. -/
def claimSlug (diskPath : Text) : Text :=
  (units "__").intercalate ((diskPath.splitOn slash).map fun seg => seg.dropWhile (· = 0x2e))

section Names

variable (shortHash : Text → Text)

def claimFileName (diskPath : Text) : Text :=
  units "artifacts/" ++ boundedSlug (claimSlug diskPath) ++ units "~" ++ shortHash diskPath ++ units ".json"

/-- `[A-Za-z0-9._-]`. -/
def isSlugUnit (u : UInt16) : Bool :=
  (0x30 ≤ u && u ≤ 0x39) || (0x41 ≤ u && u ≤ 0x5a) || (0x61 ≤ u && u ≤ 0x7a) || u = 0x2e || u = 0x5f || u = 0x2d

def bundleSlug (source : Text) : Text :=
  (((source.splitBy fun u v => isSlugUnit u == isSlugUnit v).flatMap fun run =>
    if run.all isSlugUnit then run else [0x5f])).dropWhile fun u => u = 0x2e || u = 0x5f

def bundleFileName (source : Text) : Text :=
  units "bundles/" ++ boundedSlug (bundleSlug source) ++ units "~" ++ shortHash source ++ units ".json"

end Names

/-! ## Normal records -/

def sortedSet (values : List Text) : List Text := values.eraseDups.insertionSort codeUnitsBefore

/-- A set sorted; what is none stays. -/
def plainSet (value : Json) : Json :=
  match stringList? value with
  | some values => texts (sortedSet values)
  | none => value

def ENVIRONMENT_KEYS : List Text := ["envDetectData", "confirmedValues"].map units

def RENDER_KEYS : List Text := ["projectInfo", "framework", "acceptedAgentIds", "customAgentSpecs", "lspLanguages"].map units

/-- The properties of a schema. -/
def pickKeys (keys : List Text) (fields : JsonFields) : JsonFields :=
  keys.filterMap fun key => (fields.lookup key).map (key, ·)

def environmentOf (environment : JsonFields) : JsonFields := pickKeys ENVIRONMENT_KEYS environment

def renderOf (render : JsonFields) : JsonFields :=
  (pickKeys RENDER_KEYS render).map fun field =>
    if field.1 = units "acceptedAgentIds" || field.1 = units "lspLanguages" then (field.1, plainSet field.2) else field

attribute [local instance] lawfulBEq_units in
def normalizeSettings (settings : JsonFields) : JsonFields :=
  (settings.insertionSort nameBefore).map fun setting =>
    if setting.1 ∈ SET_SETTINGS then (setting.1, plainSet setting.2) else setting

def normalizeProjectState (record : ProjectStateRecord) : ProjectStateRecord where
  environment := record.environment.map environmentOf
  render := record.render.map renderOf
  cli := sortedSet record.cli
  settings := normalizeSettings record.settings
  claims := record.claims.insertionSort fun a b => codeUnitsBefore a.path b.path
  bundles := record.bundles.insertionSort fun a b => codeUnitsBefore a.source b.source

end Haive.ProjectState

import Haive.Lib.ThreeWay
import Haive.ProjectState.Record

/-!
# Merging two records

`mergeProjectState` of `merge.ts`: a three-way merge of each unit of the record, where a unit is a file, a key of a
project file, a member of a set or a key of the watermarks. What both sides changed differently is a conflict, and
the local value stands meanwhile.
-/

namespace Haive.ProjectState

open Lib.Units
open Lib (Json Table)
open Lib.ThreeWay (settled clashes)

/-- A side that is absent is `none`. -/
structure ProjectStateConflict where
  unit : Text
  base : Option Json
  localSide : Option Json
  incoming : Option Json

/-- What a merge of some units returns, with what it adds to the outcome. -/
structure Outcome (α : Type) where
  value : α
  conflicts : List ProjectStateConflict := []
  overwritten : List Text := []

inductive WatermarkOrder
  | localSide
  | incoming
  | incomparable
  deriving DecidableEq

structure ProjectStateMergeInput where
  base : Option ProjectStateRecord
  localSide : ProjectStateRecord
  incoming : ProjectStateRecord
  diskHash : Option (Text → Option Text) := none
  watermarkOrder : Text → Text → WatermarkOrder := fun _ _ => .incomparable

structure ProjectStateMerge where
  merged : ProjectStateRecord
  conflicts : List ProjectStateConflict
  overwritten : List Text

section

variable (numberText : Float → Text) (shortHash : Text → Text) (hasBase : Bool)

/-! ## Units -/

section Unit

variable {T : Type} (json : T → Json)

def sameJson (a b : Option T) : Bool := sameValue numberText (a.map json) (b.map json)

def mergeUnit (unit : Text) (base localSide incoming : Option T) : Outcome (Option T) :=
  if ! hasBase then
    match incoming with
    | none => { value := localSide }
    | some _ =>
      { value := incoming
        overwritten :=
          if localSide.isSome && ! sameJson numberText json localSide incoming then [unit] else [] }
  else
    { value := settled (sameJson numberText json) base localSide incoming
      conflicts :=
        if clashes (sameJson numberText json) base localSide incoming then
          [⟨unit, base.map json, localSide.map json, incoming.map json⟩]
        else [] }

end Unit

def mergeMembers (base localSide incoming : List Text) : List Text :=
  if ! hasBase then sortedSet (localSide ++ incoming)
  else (sortedSet (base ++ localSide ++ incoming)).filter fun m =>
    settled (· == ·) (base.contains m) (localSide.contains m) (incoming.contains m)

/-- `isList` of a side that may be absent, with the members. -/
def members? : Option Json → Option (List Text)
  | none => some []
  | some value => stringList? value

def mergeSetValue (unit : Text) (base localSide incoming : Option Json) : Outcome (Option Json) :=
  match members? base, members? localSide, members? incoming with
  | some b, some l, some i =>
    if localSide.isNone && incoming.isNone then mergeUnit numberText hasBase id unit base localSide incoming
    else
      let merged := mergeMembers hasBase b l i
      { value := if (localSide.isNone || incoming.isNone) && merged = [] then none else some (texts merged) }
  | _, _, _ => mergeUnit numberText hasBase id unit base localSide incoming

/-! ## Files and lists -/

def gather {α β : Type} (outcome : α → Outcome (Option β)) (units : List α) : Outcome (List β) where
  value := units.filterMap fun unit => (outcome unit).value
  conflicts := units.flatMap fun unit => (outcome unit).conflicts
  overwritten := units.flatMap fun unit => (outcome unit).overwritten

def keyUnit (file key : Text) : Text := file ++ units "#" ++ key

def Outcome.named (key : Text) (o : Outcome (Option Json)) : Outcome (Option (Text × Json)) where
  value := o.value.map (key, ·)
  conflicts := o.conflicts
  overwritten := o.overwritten

attribute [local instance] lawfulBEq_units in
def mergeKey (file : Text) (setKeys : List Text) (base : Option JsonFields) (localSide incoming : JsonFields) (key : Text) :
    Outcome (Option (Text × Json)) :=
  let unit := keyUnit file key
  let b := base.bind (·.lookup key)
  let l := localSide.lookup key
  let i := incoming.lookup key
  (if key ∈ setKeys then mergeSetValue numberText hasBase unit b l i else mergeUnit numberText hasBase id unit b l i).named
    key

/-- Key by key where both sides have the file, else as one unit. -/
def mergeObjectFile (file : Text) (base localSide incoming : Option JsonFields) (setKeys : List Text) :
    Outcome (Option JsonFields) :=
  match localSide, incoming with
  | some l, some i =>
    let keys := sortedSet (l.map Prod.fst ++ i.map Prod.fst ++ (base.getD []).map Prod.fst)
    let merged := gather (mergeKey numberText hasBase file setKeys base l i) keys
    { value := some merged.value, conflicts := merged.conflicts, overwritten := merged.overwritten }
  | _, _ => mergeUnit numberText hasBase .obj file base localSide incoming

/-- `settle` answers with `none` where it could not decide. -/
def mergeKeyed {T : Type} (json : T → Json) (keyOf : T → Text) (unitOf : Text → Text) (base localSide incoming : List T)
    (settle : Option (Text → Option T → Option T → Option (Option T))) : Outcome (List T) :=
  let b : Table T keyOf := .ofList base
  let l : Table T keyOf := .ofList localSide
  let i : Table T keyOf := .ofList incoming
  gather
    (fun key =>
      let changedBoth := hasBase && clashes (sameJson numberText json) (b.find? key) (l.find? key) (i.find? key)
      match (if changedBoth then settle else none).bind fun settle => settle key (l.find? key) (i.find? key) with
      | some value => { value }
      | none => mergeUnit numberText hasBase json (unitOf key) (b.find? key) (l.find? key) (i.find? key))
    (sortedSet (b.keys ++ l.keys ++ i.keys))

/-! ## Settings -/

/-- `reviewWatermarks(value) ?? {}`. -/
def watermarksOf : Option Json → List (Text × Text)
  | some (.obj fields) => ((REVIEW_WATERMARK_KEYS.mapM (takeWatermark fields)).map List.flatten).getD []
  | _ => []

def watermarkUnit (key : Text) : Text := keyUnit (units "settings/review-watermarks.json") key

def settledMark (watermarkOrder : Text → Text → WatermarkOrder) (localMark : Text) : Option Text → Text
  | none => localMark
  | some incoming => if localMark ≠ incoming && watermarkOrder localMark incoming = .incoming then incoming else localMark

def mergeWatermarks (watermarkOrder : Text → Text → WatermarkOrder) (base localSide incoming : Option Json) :
    Outcome (Option Json) :=
  let localMarks := watermarksOf localSide
  let incomingMarks := watermarksOf incoming
  let merged :=
    localMarks.map (fun mark => (mark.1, settledMark watermarkOrder mark.2 (incomingMarks.lookup mark.1))) ++
      REVIEW_WATERMARK_KEYS.filterMap fun key =>
        if (localMarks.lookup key).isSome then none else (incomingMarks.lookup key).map (key, ·)
  { value := if merged = [] then none else some (record merged)
    conflicts := REVIEW_WATERMARK_KEYS.filterMap fun key =>
      match localMarks.lookup key, incomingMarks.lookup key with
      | some l, some i =>
        if l ≠ i && watermarkOrder l i = .incomparable then
          some ⟨watermarkUnit key, ((watermarksOf base).lookup key).map .str, some (.str l), some (.str i)⟩
        else none
      | _, _ => none }

attribute [local instance] lawfulBEq_units in
def mergeSetting (watermarkOrder : Text → Text → WatermarkOrder) (base localSide incoming : JsonFields) (name : Text) :
    Outcome (Option (Text × Json)) :=
  let b := base.lookup name
  let l := localSide.lookup name
  let i := incoming.lookup name
  let unit := settingFileName name
  (if name = REVIEW_WATERMARK_SETTING then mergeWatermarks watermarkOrder b l i
    else if name ∈ SET_SETTINGS then mergeSetValue numberText hasBase unit b l i
    else mergeUnit numberText hasBase id unit b l i).named name

def mergeSettings (watermarkOrder : Text → Text → WatermarkOrder) (base localSide incoming : JsonFields) :
    Outcome JsonFields :=
  gather (mergeSetting numberText hasBase watermarkOrder base localSide incoming)
    (sortedSet (base.map Prod.fst ++ localSide.map Prod.fst ++ incoming.map Prod.fst))

/-! ## Records -/

def holds (claim : Option ProjectStateClaim) (bytes : Option Text) : Bool :=
  match claim with
  | none => bytes = none
  | some claim => bytes = some claim.writtenHash

def settleByDisk (diskHash : Text → Option Text) (path : Text) (localSide incoming : Option ProjectStateClaim) :
    Option (Option ProjectStateClaim) :=
  if holds incoming (diskHash path) then some incoming
  else if holds localSide (diskHash path) then some localSide
  else none

end

def mergeProjectState (numberText : Float → Text) (shortHash : Text → Text) (input : ProjectStateMergeInput) :
    ProjectStateMerge :=
  let hasBase := input.base.isSome
  let base := normalizeProjectState (input.base.getD emptyProjectState)
  let localSide := normalizeProjectState input.localSide
  let incoming := normalizeProjectState input.incoming
  let environment := mergeObjectFile numberText hasBase ENVIRONMENT_UNIT base.environment localSide.environment
    incoming.environment []
  let render := mergeObjectFile numberText hasBase RENDER_UNIT base.render localSide.render incoming.render
    RENDER_SET_KEYS
  let cli := mergeMembers hasBase base.cli localSide.cli incoming.cli
  let settings := mergeSettings numberText hasBase input.watermarkOrder base.settings localSide.settings
    incoming.settings
  let claims := mergeKeyed numberText hasBase ProjectStateClaim.json ProjectStateClaim.path (claimFileName shortHash)
    base.claims localSide.claims incoming.claims (input.diskHash.map settleByDisk)
  let bundles := mergeKeyed numberText hasBase ProjectStateBundle.json ProjectStateBundle.source
    (bundleFileName shortHash) base.bundles localSide.bundles incoming.bundles none
  { merged := normalizeProjectState
      ⟨environment.value, render.value, cli, settings.value, claims.value, bundles.value⟩
    conflicts := environment.conflicts ++ render.conflicts ++ settings.conflicts ++ claims.conflicts ++ bundles.conflicts
    overwritten :=
      environment.overwritten ++ render.overwritten ++ settings.overwritten ++ claims.overwritten ++
        bundles.overwritten }

end Haive.ProjectState

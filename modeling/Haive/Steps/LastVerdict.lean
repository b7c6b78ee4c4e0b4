import Haive.Steps.JsonObjects

/-!
# The last verdict

`parseReviewerOutput` of `worker/src/step-engine/dag-executor.ts` reads a reviewer's raw output with
`extractFencedJson`, where the other readers of agents' answers take the last object that fits
(`parseJsonLooseValidated_text`). `last_verdict_iff` says for which answers the two agree.
-/

namespace Haive.FencedJson

open Lib.Units
open Lib (Json)
open Lib.Json (Kind isSpace)

/-! ## `reviewerOutputSchema` -/

inductive Verdict
  | approve
  | fixRequired
  | block
deriving DecidableEq

inductive Severity
  | high
  | medium
  | low

inductive InScope
  | flag (b : Bool)
  | words (s : Text)

structure CriterionResult where
  criterion : Text
  passed : Bool
  note : Option Text

structure ReviewerIssue where
  severity : Option Severity
  file : Option Text
  description : Text
  suggestion : Option Text
  inScope : Option InScope

structure ReviewerOutput where
  verdict : Verdict
  criteriaResults : List CriterionResult
  issues : List ReviewerIssue
  withheld : Option (List ReviewerIssue)

abbrev JsonFields := List (Text × Json)

def object? : Json → Option JsonFields
  | .obj fields => some fields
  | _ => none

def bool? : Json → Option Bool
  | .bool b => some b
  | _ => none

def required {A : Type} (read : Json → Option A) (fields : JsonFields) (key : String) : Option A :=
  (fields.lookup (units key)).bind read

/-- `.optional()`. -/
def optional {A : Type} (read : Json → Option A) (fields : JsonFields) (key : String) : Option (Option A) :=
  match fields.lookup (units key) with
  | none => some none
  | some j => (read j).map some

def arrayOf {A : Type} (read : Json → Option A) (j : Json) : Option (List A) := j.arr?.bind (·.mapM read)

/-- `z.array(..).default([])`. -/
def arrayDefault {A : Type} (read : Json → Option A) (fields : JsonFields) (key : String) : Option (List A) :=
  (optional (arrayOf read) fields key).map (·.getD [])

def enum {A : Type} (members : List (String × A)) (j : Json) : Option A :=
  j.str?.bind fun s => (members.find? fun member => units member.1 = s).map Prod.snd

def verdict? : Json → Option Verdict :=
  enum [("approve", .approve), ("fix_required", .fixRequired), ("block", .block)]

def severity? : Json → Option Severity := enum [("high", .high), ("medium", .medium), ("low", .low)]

def inScope? : Json → Option InScope
  | .bool b => some (.flag b)
  | .str s => some (.words s)
  | _ => none

def criterionResult? (j : Json) : Option CriterionResult := do
  let fields ← object? j
  let criterion ← required Json.str? fields "criterion"
  let passed ← required bool? fields "passed"
  let note ← optional Json.str? fields "note"
  some { criterion, passed, note }

def reviewerIssueSchema (j : Json) : Option ReviewerIssue := do
  let fields ← object? j
  let severity ← optional severity? fields "severity"
  let file ← optional Json.str? fields "file"
  let description ← required Json.str? fields "description"
  let suggestion ← optional Json.str? fields "suggestion"
  -- `.optional().catch(undefined)`
  some { severity, file, description, suggestion, inScope := (optional inScope? fields "in_scope").getD none }

def reviewerOutputSchema (j : Json) : Option ReviewerOutput := do
  let fields ← object? j
  let verdict ← required verdict? fields "verdict"
  let criteriaResults ← arrayDefault criterionResult? fields "criteria_results"
  let issues ← arrayDefault reviewerIssueSchema fields "issues"
  let withheld ← optional (arrayOf reviewerIssueSchema) fields "withheld"
  some { verdict, criteriaResults, issues, withheld }

/-! ## The scope fence -/

/-- `toLowerCase`, as far as it yields letters from `a` to `z`. -/
def toLowerCase (u : UInt16) : Text :=
  if 0x41 ≤ u && u ≤ 0x5a then [u + 0x20]
  else if u = 0x130 then [0x69, 0x307]
  else if u = 0x212a then [0x6b]
  else [u]

def OUT_OF_SCOPE_WORDS : List Text := ["no", "n", "false", "pre-existing", "preexisting"].map units

def isOutOfScope (issue : ReviewerIssue) : Bool :=
  match issue.inScope with
  | none => false
  | some (.flag b) => ! b
  | some (.words s) =>
    let first := ((trim s).flatMap toLowerCase).takeWhile fun u => (0x61 ≤ u && u ≤ 0x7a) || u = 0x2d
    OUT_OF_SCOPE_WORDS.contains first

def failedCriteriaCount (out : ReviewerOutput) : Nat :=
  (out.criteriaResults.filter fun c => c.passed = false).length

/-! ## `parseReviewerOutput` -/

/-- What of a CLI invocation the reader takes; `none` is null. -/
structure Invocation where
  parsedOutput : Option Json
  rawOutput : Option Text

def reviewOf (candidate : Json) : Option ReviewerOutput :=
  (reviewerOutputSchema candidate).map fun data =>
    let issues := data.issues.filter (! isOutOfScope ·)
    let withheld := data.issues.filter isOutOfScope
    let out := { data with issues, withheld := none }
    if withheld.isEmpty then out
    else
      let out := { out with withheld := some withheld }
      if out.verdict ≠ .approve && issues.isEmpty && failedCriteriaCount out = 0 then { out with verdict := .approve }
      else out

def parsedCandidate (inv : Invocation) : Option Json :=
  match inv.parsedOutput with
  | some (.obj fields) => some (.obj fields)
  | some (.arr elems) => some (.arr elems)
  | _ => none

/-- `parseReviewerOutput`; `none` is null. -/
def parseReviewerOutput (inv : Invocation) : Option ReviewerOutput :=
  let candidate := (parsedCandidate inv).or (inv.rawOutput.bind fun raw => (extractFencedJson raw).bind Json.parse)
  reviewOf (candidate.getD .null)

/-! ## The end of a value -/

/-- The scan stops at a closing bracket. -/
theorem balancedFrom_closer {opener closer : UInt16} {depth : Int} {inString escape : Bool} {t : Text} {i : Nat}
    (h : balancedFrom opener closer depth inString escape t = some i) : t[i]? = some closer := by
  induction t generalizing depth inString escape i with
  | nil => cases h
  | cons c rest ih =>
    have hmore : ∀ {depth inString escape}, (balancedFrom opener closer depth inString escape rest).map (· + 1) =
        some i → (c :: rest)[i]? = some closer := by
      intro _ _ _ hmap
      obtain ⟨i', hi', rfl⟩ := Option.map_eq_some_iff.mp hmap
      exact ih hi'
    rw [balancedFrom] at h
    split at h
    · exact hmore h
    · split at h
      · exact hmore h
      · split at h
        · exact hmore h
        · split at h
          · exact hmore h
          · split at h
            · next hcloser =>
              split at h
              · obtain rfl := Option.some.inj h
                rw [List.getElem?_cons_zero, hcloser]
              · exact hmore h
            · exact hmore h

theorem findBalancedEnd_closer {text : Text} {openIdx stop : Nat} (h : findBalancedEnd text openIdx = some stop) :
    openIdx ≤ stop ∧ (text[stop]? = some 0x5d ∨ text[stop]? = some 0x7d) := by
  obtain ⟨opener, -, hrest⟩ := Option.bind_eq_some_iff.mp h
  obtain ⟨i, hi, rfl⟩ := Option.map_eq_some_iff.mp hrest
  have hat := balancedFrom_closer hi
  rw [List.getElem?_drop] at hat
  refine ⟨Nat.le_add_right openIdx i, ?_⟩
  rw [hat]
  split
  · exact .inl rfl
  · exact .inr rfl

/-- What is returned runs from bracket to bracket. -/
theorem container_of_extractFrom {text body : Text} {j : Json} (h : extractFrom text = some body)
    (hparse : Json.parse body = some j) : ContainerText body j := by
  obtain ⟨openIdx, hfind, hrest⟩ := Option.bind_eq_some_iff.mp h
  obtain ⟨stop, hstop, hbody⟩ := Option.map_eq_some_iff.mp hrest
  obtain ⟨hlt, hopener, -⟩ := List.findIdx?_eq_some_iff_getElem.mp hfind
  obtain ⟨hle, hcloser⟩ := findBalancedEnd_closer hstop
  refine ⟨hparse, ?_, fun u hu => ?_⟩
  · obtain ⟨k, hk⟩ := isOpener_iff.mp hopener
    refine ⟨k, ?_⟩
    rw [← hbody, List.head?_drop, List.getElem?_take_of_lt (by omega), List.getElem?_eq_getElem hlt, hk]
  · have hstoplt : stop < text.length := by
      rcases hcloser with hat | hat <;> exact (List.getElem?_eq_some_iff.mp hat).1
    have hlast : body.getLast? = text[stop]? := by
      rw [← hbody, List.getLast?_drop, if_neg (by rw [List.length_take]; omega), List.getLast?_take,
        if_neg (by omega), Nat.add_sub_cancel, List.getElem?_eq_getElem hstoplt, Option.some_or]
    rw [hlast, Option.mem_def] at hu
    rcases hcloser with hat | hat <;> rw [hat] at hu <;> obtain rfl := Option.some.inj hu <;> decide

/-! ## Answers -/

theorem parseReviewerOutput_raw (raw : Text) {r : ReviewerOutput} : parseReviewerOutput ⟨none, some raw⟩ = some r ↔
    ∃ body j, extractFencedJson raw = some body ∧ Json.parse body = some j ∧ reviewOf j = some r := by
  rw [parseReviewerOutput]
  dsimp only [parsedCandidate]
  rw [Option.none_or, Option.bind_some]
  constructor
  · intro h
    cases hextract : extractFencedJson raw with
    | none =>
      rw [hextract, Option.bind_none] at h
      cases h
    | some body =>
      rw [hextract, Option.bind_some] at h
      cases hparse : Json.parse body with
      | none =>
        rw [hparse] at h
        cases h
      | some j =>
        rw [hparse, Option.getD_some] at h
        exact ⟨body, j, rfl, hparse, h⟩
  · rintro ⟨body, j, hextract, hparse, h⟩
    rw [hextract, Option.bind_some, hparse, Option.getD_some, h]

/-- At the first bracket behind the first json fence, or of the whole text where there is none, stands
a JSON value that reads as the review. -/
def StandsFirst (r : ReviewerOutput) (raw : Text) : Prop :=
  ∃ q body tail j, (afterFence raw).getD raw = q ++ (body ++ tail) ∧ (∀ u ∈ q, isOpener u = false) ∧
    ContainerText body j ∧ reviewOf j = some r

theorem parseReviewerOutput_iff (raw : Text) {r : ReviewerOutput} :
    parseReviewerOutput ⟨none, some raw⟩ = some r ↔ StandsFirst r raw := by
  rw [parseReviewerOutput_raw]
  constructor
  · rintro ⟨body, j, hextract, hparse, h⟩
    have hbody := container_of_extractFrom hextract hparse
    obtain ⟨q, tail, heq, hq⟩ := (extractFrom_eq_iff hbody _).mp hextract
    exact ⟨q, body, tail, j, heq, hq, hbody, h⟩
  · rintro ⟨q, body, tail, j, heq, hq, hbody, h⟩
    exact ⟨body, j, (extractFrom_eq_iff hbody _).mpr ⟨q, tail, heq, hq⟩, hbody.parse, h⟩

/-- The last object that its caller accepts is the answer for every caller of
`parseJsonLooseValidated`; it is the reviewer's exactly where the value at the first bracket is no
other review. -/
theorem last_verdict_iff (jsonrepair : Text → Option Text) (a : AgentText) :
    ((∀ (T : Type) (accept : Json → Option T) (r : T), (a.values.filterMap accept).getLast? = some r →
        parseJsonLooseValidated jsonrepair accept a.text = some r) ∧
      ∀ r, (a.values.filterMap reviewOf).getLast? = some r → parseReviewerOutput ⟨none, some a.text⟩ = some r) ↔
    ∀ r, (a.values.filterMap reviewOf).getLast? = some r → StandsFirst r a.text := by
  have hloose : ∀ (T : Type) (accept : Json → Option T) (r : T), (a.values.filterMap accept).getLast? = some r →
      parseJsonLooseValidated jsonrepair accept a.text = some r :=
    fun _ accept _ h => parseJsonLooseValidated_text jsonrepair accept a h
  rw [and_iff_right hloose]
  exact forall_congr' fun r => imp_congr_right fun _ => parseReviewerOutput_iff a.text

def quotedVerdict : AnswerPart where
  prose := []
  object := units "\x7b\"verdict\":\"approve\"\x7d"
  fields := [(units "verdict", .str (units "approve"))]
  quiet := by decide
  parse := rfl
  opens := rfl
  ends := ends_of_last rfl rfl
  nonempty := List.cons_ne_nil _ _

def finalVerdict : AnswerPart where
  prose := units "\n"
  object := units "\x7b\"verdict\":\"block\"\x7d"
  fields := [(units "verdict", .str (units "block"))]
  quiet := by decide
  parse := rfl
  opens := rfl
  ends := ends_of_last rfl rfl
  nonempty := List.cons_ne_nil _ _

/-- The reviewer quotes an approval and then blocks: the issue is approved. -/
theorem quoted_verdict_wins : ∃ a : AgentText,
    ((a.values.filterMap reviewOf).getLast?.map (·.verdict)) = some .block ∧
    (parseReviewerOutput ⟨none, some a.text⟩).map (·.verdict) = some .approve :=
  ⟨⟨[quotedVerdict, finalVerdict], [], by decide⟩, rfl, rfl⟩

end Haive.FencedJson

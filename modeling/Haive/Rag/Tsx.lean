import Haive.Rag.JsNonCode

/-!
# A `<` in a TSX file

Whether a `<` opens an element of JSX or the type parameters of an arrow function: `tsxGenericArrow` of
`_rag-chunkers.ts` looks for the arrow behind bounded windows of type parameters, parameters and annotation.
The walk over the parameters runs the JS reader without JSX, so the lookahead does not come back to itself.
-/

namespace Haive.Rag

open Lib.Loop Lib.Spans Lib.Units

/-! ## Literals -/

structure Literals where
  ends : Nat → Option Nat
  behind : ∀ start stop, ends start = some stop → start < stop

def noLiterals : Literals where
  ends _ := none
  behind _ _ h := (Option.some_ne_none _ h.symm).elim

/-- The literals with those from `start` on read again. -/
def Literals.replace (literals : Literals) (start : Nat) (found : List (Nat × Nat))
    (hfound : ∀ literal ∈ found, literal.1 < literal.2) : Literals where
  ends k :=
    ((found.reverse.find? fun literal => literal.1 = k).map Prod.snd).or (if k < start then literals.ends k else none)
  behind k stop h := by
    rcases Option.or_eq_some_iff.mp h with hnew | ⟨-, hold⟩
    · obtain ⟨literal, hfind, rfl⟩ := Option.map_eq_some_iff.mp hnew
      have hkey := List.find?_some hfind
      rw [decide_eq_true_eq] at hkey
      exact hkey ▸ hfound literal (List.mem_reverse.mp (List.mem_of_find?_eq_some hfind))
    · split at hold
      · exact literals.behind k stop hold
      · cases hold

/-- What a literal stands between. -/
def isDelimiter (u : UInt16) : Bool := u = 0x22 || u = 0x27 || u = 0x60 || u = ch '/'

/-- The literal around the span, with its flags if it is a regular expression. -/
def literalAround (code : Text) (span : Span) : Option (Nat × Nat) :=
  (code[span.1 - 1]?).bind fun delimiter =>
    if 0 < span.1 ∧ isDelimiter delimiter ∧ code[span.2]? = some delimiter then
      some (span.1 - 1, if delimiter = ch '/' then pass code isLower (span.2 + 1) else span.2 + 1)
    else none

theorem literalAround_spec {code : Text} {span : Span} {literal : Nat × Nat} (hspan : span.1 ≤ span.2)
    (h : literalAround code span = some literal) :
    literal.1 < literal.2 ∧ ∃ delimiter, code[literal.1]? = some delimiter ∧ isDelimiter delimiter = true := by
  obtain ⟨delimiter, hat, hliteral⟩ := Option.bind_eq_some_iff.mp h
  split at hliteral
  · next hdelimits =>
    cases hliteral
    refine ⟨?_, delimiter, hat, hdelimits.2.1⟩
    have hpass := le_pass code isLower (span.2 + 1)
    dsimp only
    split <;> omega
  · cases hliteral

/-- What `readLiterals` puts in front of the code: a value, so that a slash divides. -/
def literalPrefix (afterValue : Bool) : Text := if afterValue then units "0 " else []

def literalsFrom (U : Unicode) (text : Text) (start : Nat) (afterValue : Bool) : List (Nat × Nat) :=
  let code := literalPrefix afterValue ++ text.drop start
  ((jsNonCodeWith U code false false false fun _ => false).filterMap (literalAround code)).map fun literal =>
    (start + literal.1 - (literalPrefix afterValue).length, start + literal.2 - (literalPrefix afterValue).length)

theorem literalsFrom_lt {U : Unicode} {text : Text} {start : Nat} {afterValue : Bool} :
    ∀ literal ∈ literalsFrom U text start afterValue, literal.1 < literal.2 := by
  intro literal hliteral
  obtain ⟨found, hfound, rfl⟩ := List.mem_map.mp hliteral
  obtain ⟨span, hspan, haround⟩ := List.mem_filterMap.mp hfound
  obtain ⟨hlt, delimiter, hat, hdelimits⟩ := literalAround_spec (jsNonCodeWith_ordered.bounds hspan).2.1 haround
  -- no literal starts in the prefix
  have hbehind : (literalPrefix afterValue).length ≤ found.1 := by
    by_contra hin
    rw [List.getElem?_append_left (Nat.lt_of_not_le hin)] at hat
    have hplain : (literalPrefix afterValue).all (fun u => ! isDelimiter u) = true := by cases afterValue <;> decide
    have hnot := List.all_eq_true.mp hplain delimiter (List.mem_of_getElem? hat)
    rw [hdelimits] at hnot
    cases hnot
  dsimp only
  omega

def readLiterals (U : Unicode) (text : Text) (literals : Literals) (start : Nat) (afterValue : Bool := false) : Literals :=
  literals.replace start (literalsFrom U text start afterValue) literalsFrom_lt

/-! ## Parameters -/

/-- The variables of `tsxParametersEnd`; the innermost element comes first, and the innermost expression. -/
structure ParametersState where
  literals : Literals
  cursor : Nat
  parens : Int := 1
  braces : Int := 0
  prev : Option Text := some [ch '(']
  arrowInCode : Bool := false
  jsxText : Bool := false
  elements : List (Text × Bool) := []
  expressionEnds : List Int := []

section

variable (U : Unicode) (text candidateName : Text)

/-- A turn in the text of an element. -/
def parametersText (s : ParametersState) : ParametersState ⊕ Option Nat :=
  if isAt text s.cursor '{' then
    .inl { s with
      expressionEnds := s.braces :: s.expressionEnds
      braces := s.braces + 1
      jsxText := false
      prev := some [ch '{']
      cursor := s.cursor + 1
      literals := readLiterals U text s.literals (s.cursor + 1) }
  else if isAt text s.cursor '<' then
    match jsxClosingTag text s.cursor with
    | some close =>
      match s.elements with
      | [] => .inr none
      | element :: rest =>
        if close.1 ≠ element.1 then .inr none
        else
          .inl { s with
            elements := rest
            cursor := close.2
            jsxText := element.2
            literals := if element.2 then s.literals else readLiterals U text s.literals close.2 true
            prev := some [] }
    | none =>
      match jsxTagHeader text s.cursor with
      | none => .inr none
      | some tag =>
        .inl { s with
          elements := if tag.selfClosing then s.elements else (tag.name, true) :: s.elements
          cursor := tag.stop }
  else .inl { s with cursor := s.cursor + 1 }

/-- The token behind which `prev` stands, once the brackets are counted. -/
def parametersPrev (s : ParametersState) (token : HeadToken) : ParametersState :=
  if (token.text = units "+" || token.text = units "-") && token.text.head? = text[s.cursor]? then
    { s with
      cursor := s.cursor + 1
      prev := some (if regexMayStart U s.prev then token.text else []) }
  else
    { s with
      prev := some (
        if token.text = units "!" && ! isAt text s.cursor '=' && ! regexMayStart U s.prev then []
        else if token.word then if s.prev = some (units ".") then [] else token.text
        else if (token.text.head?).any fun u => isDigit u || u = 0x22 || u = 0x27 || u = 0x60 then []
        else token.text) }

def parametersBrackets (s : ParametersState) (token : HeadToken) : ParametersState ⊕ Option Nat :=
  if token.text = units "(" && s.elements = [] then .inl { s with parens := s.parens + 1 }
  else if token.text = units ")" && s.elements = [] then
    if s.parens - 1 = 0 then .inr (some s.cursor) else .inl { s with parens := s.parens - 1 }
  else if token.text = [ch '{'] then .inl { s with braces := s.braces + 1 }
  else if token.text = [ch '}'] then
    if s.expressionEnds.head? = some (s.braces - 1) then
      .inl { s with braces := s.braces - 1, expressionEnds := s.expressionEnds.tail, jsxText := true }
    else .inl { s with braces := s.braces - 1 }
  else .inl s

def ParametersState.arrow (s : ParametersState) (token : HeadToken) : ParametersState :=
  { s with arrowInCode := s.arrowInCode || (token.text = units "=>" && s.braces = 0 && s.elements = []) }

/-- A token that is no literal and no tag; the cursor stands behind it. -/
def parametersToken (s : ParametersState) (token : HeadToken) : ParametersState ⊕ Option Nat :=
  match parametersBrackets s token with
  | .inr result => .inr result
  | .inl s => .inl (parametersPrev U text (s.arrow token) token)

/-- A turn in code. -/
def parametersCode (s : ParametersState) : ParametersState ⊕ Option Nat :=
  let token := jsxHeadToken U text s.cursor
  if token.text = [] then .inr none
  else
    let start := token.stop - token.text.length
    match s.literals.ends start with
    | some stop => .inl { s with cursor := stop, prev := some [] }
    | none =>
      match if token.text = units "<" then jsxClosingTag text start else none with
      | some close =>
        if close.1 = candidateName && s.elements = [] && s.braces = 0 && ! s.arrowInCode then .inr none
        else .inl { s with cursor := close.2, prev := some [] }
      | none =>
        match if token.text = units "<" && regexMayStart U s.prev &&
            ! tsxGenericHead U (slice text start (start + MAX_PARAMS_CHARS)) then jsxTagHeader text start else none with
        | some tag =>
          .inl { s with
            elements := if tag.selfClosing then s.elements else (tag.name, false) :: s.elements
            jsxText := if tag.selfClosing then s.jsxText else true
            cursor := tag.stop
            literals := if tag.selfClosing then readLiterals U text s.literals tag.stop true else s.literals
            prev := some [] }
        | none => parametersToken U text { s with cursor := token.stop } token

/-- A turn of the loop of `tsxParametersEnd`. -/
def parametersTurn (s : ParametersState) : ParametersState ⊕ Option Nat :=
  if s.cursor < text.length then
    if s.jsxText then parametersText U text s else parametersCode U text candidateName s
  else .inr none

end

variable {U : Unicode} {text candidateName : Text} {s t : ParametersState}

theorem parametersText_lt (h : parametersText U text s = .inl t) : s.cursor < t.cursor := by
  rw [parametersText] at h
  split at h
  · cases h
    exact Nat.lt_succ_self _
  split at h
  · split at h
    · next close hclose =>
      split at h
      · cases h
      · split at h
        · cases h
        · cases h
          exact (Nat.lt_add_of_pos_right (by decide)).trans (jsxClosingTag_bounds hclose).1
    · split at h
      · cases h
      · next tag htag =>
        cases h
        exact (Nat.lt_succ_self _).trans (jsxTagHeader_bounds htag).1
  · cases h
    exact Nat.lt_succ_self _

theorem parametersPrev_le (s : ParametersState) (token : HeadToken) :
    s.cursor ≤ (parametersPrev U text s token).cursor := by
  rw [parametersPrev]
  split
  · exact Nat.le_succ _
  · exact Nat.le_refl _

theorem parametersBrackets_cursor {token : HeadToken} (h : parametersBrackets s token = .inl t) : t.cursor = s.cursor := by
  rw [parametersBrackets] at h
  split at h
  · cases h
    rfl
  split at h
  · split at h
    · cases h
    · cases h
      rfl
  split at h
  · cases h
    rfl
  split at h
  · split at h
    · cases h
      rfl
    · cases h
      rfl
  · cases h
    rfl

theorem parametersToken_le {token : HeadToken} (h : parametersToken U text s token = .inl t) : s.cursor ≤ t.cursor := by
  rw [parametersToken] at h
  split at h
  · cases h
  · next counted hcounted =>
    cases h
    exact (parametersBrackets_cursor hcounted).symm.trans_le (parametersPrev_le (counted.arrow token) token)

theorem parametersCode_lt (h : parametersCode U text candidateName s = .inl t) : s.cursor < t.cursor := by
  rw [parametersCode] at h
  dsimp only at h
  split at h
  · cases h
  · next hne =>
    obtain ⟨hlt, -, hlength⟩ := jsxHeadToken_bounds hne
    have hstart : s.cursor ≤
        (jsxHeadToken U text s.cursor).stop - (jsxHeadToken U text s.cursor).text.length := by omega
    split at h
    · next stop hstop =>
      cases h
      exact hstart.trans_lt (s.literals.behind _ _ hstop)
    split at h
    · next close hclose =>
      split at hclose
      · have hbehind := (jsxClosingTag_bounds hclose).1
        split at h
        · cases h
        · cases h
          exact hstart.trans_lt ((Nat.lt_add_of_pos_right (by decide)).trans hbehind)
      · cases hclose
    split at h
    · next tag htag =>
      split at htag
      · cases h
        exact hstart.trans_lt ((Nat.lt_succ_self _).trans (jsxTagHeader_bounds htag).1)
      · cases htag
    · exact hlt.trans_le (parametersToken_le h)

theorem falls_parametersTurn (U : Unicode) (text candidateName : Text) :
    Falls (parametersTurn U text candidateName) fun s => text.length - s.cursor := by
  intro s t ht
  rw [parametersTurn] at ht
  split at ht
  · next hin =>
    have hlt : s.cursor < t.cursor := by
      split at ht
      · exact parametersText_lt ht
      · exact parametersCode_lt ht
    exact (by omega : text.length - t.cursor < text.length - s.cursor)
  · cases ht

def tsxParametersEnd (U : Unicode) (text : Text) (start : Nat) (candidateName : Text) : Option Nat :=
  run (parametersTurn U text candidateName) (fun s => text.length - s.cursor)
    (falls_parametersTurn U text candidateName) { literals := readLiterals U text noLiterals 0, cursor := start }

/-! ## The arrow -/

section

variable (U : Unicode)

def typeParametersEnd (head : Text) (angles cursor : Nat) : Option Nat :=
  match angles with
  | 0 => some cursor
  | angles + 1 =>
    let token := jsxHeadToken U head cursor
    if _h : token.text = [] then none
    else typeParametersEnd head
      (if token.text = units "<" then angles + 2 else if token.text = units ">" then angles else angles + 1) token.stop
termination_by head.length - cursor
decreasing_by
  obtain ⟨hlt, hend, -⟩ := jsxHeadToken_bounds _h
  omega

def closesBracket (token : Text) : Option Text :=
  if token = units "(" then some (units ")")
  else if token = units "[" then some (units "]")
  else if token = [ch '{'] then some [ch '}']
  else if token = units "<" then some (units ">")
  else none

/-- An arrow stands behind the annotation; `stack` are the brackets to close, the innermost first. -/
def arrowBehind (tail : Text) (stack : List Text) (cursor : Nat) : Bool :=
  let token := jsxHeadToken U tail cursor
  if _h : token.text = [] then false
  else if stack = [] && token.text = units ";" then false
  else if token.text = units "<" && (jsxHeadToken U tail token.stop).text = units "/" then false
  else if token.text = units "=>" && stack = [] then true
  else
    match closesBracket token.text with
    | some close => arrowBehind tail (close :: stack) token.stop
    | none =>
      if (names [")", "]", "\x7d", ">"]).elem token.text then
        match stack with
        | [] => false
        | close :: rest => if close = token.text then arrowBehind tail rest token.stop else false
      else arrowBehind tail stack token.stop
termination_by tail.length - cursor
decreasing_by
  all_goals
    obtain ⟨hlt, hend, -⟩ := jsxHeadToken_bounds _h
    omega

def tsxGenericArrow (text : Text) (start : Nat) : Bool :=
  let head := slice text start (start + MAX_PARAMS_CHARS)
  if ! tsxGenericHead U head then false
  else
    match typeParametersEnd U head 1 1 with
    | none => false
    | some cursor =>
      let parameters := slice text (start + cursor) (start + cursor + MAX_PARAMS_CHARS)
      let first := jsxHeadToken U parameters 0
      if first.text ≠ units "(" then false
      else
        let name := jsxHeadToken U head 1
        let name := if name.text = units "const" then jsxHeadToken U head name.stop else name
        match tsxParametersEnd U parameters first.stop name.text with
        | none => false
        | some stop =>
          let tail := slice text (start + cursor + stop) (start + cursor + stop + MAX_PARAMS_CHARS)
          let token := jsxHeadToken U tail 0
          if token.text = units "=>" then true
          else if token.text ≠ units ":" then false
          else arrowBehind U tail [] token.stop

def jsxOpeningAt (text : Text) (start : Nat) (tsx : Bool) : Bool :=
  ! (tsx && tsxGenericArrow U text start) && (jsxTagHeader text start).isSome

end

/-! ## The reader -/

/-- `jsxMode`: none, JSX, or JSX in a TypeScript file. -/
inductive JsxFlavour
  | off
  | on
  | tsx
  deriving DecidableEq

/-- The places at which the reader asks whether JSX opens. -/
def opensJsx (U : Unicode) (text : Text) (java : Bool) (jsxMode : JsxFlavour) (i : Nat) : Bool :=
  jsxMode ≠ .off && ! java && jsxOpeningAt U text i (jsxMode = .tsx)

def jsNonCode (U : Unicode) (text : Text) (java htmlComments module : Bool) (jsxMode : JsxFlavour) : List Span :=
  jsNonCodeWith U text java htmlComments module (opensJsx U text java jsxMode)

end Haive.Rag

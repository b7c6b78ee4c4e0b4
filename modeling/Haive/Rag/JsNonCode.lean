import Haive.Rag.JsTokens

/-!
# What is not code in a JS, TS or Java file

`jsNonCode` of `_rag-chunkers.ts`: comments, strings, templates with their expressions, regular expressions,
the text and the tags of JSX. Its loop goes back when a template never closes, so its rank counts how often
that may still happen first. `JsShape` is what every turn keeps.
-/

namespace Haive.Rag

open Lib.Loop Lib.Spans Lib.Units

def MAX_REGEX_MISSES : Nat := 8
def MAX_STRAY_TICKS : Nat := 8

inductive JsxMode
  | tag
  | text
  | expression
  deriving DecidableEq

structure JsxFrame where
  mode : JsxMode := .tag
  depth : Int := 0
  closing : Bool := false
  braces : Int := 0
  resume : JsxMode := .text

/-- The depth behind the tag that ends, with or without a slash in front of its `>`. -/
def JsxFrame.depthBehind (markup : JsxFrame) (selfClosing : Bool) : Int :=
  if markup.closing then markup.depth - 1 else if ! selfClosing then markup.depth + 1 else markup.depth

/-- The variables of `jsNonCode`; the innermost frame comes first, and the innermost JSX. -/
structure JsState where
  spans : List Span := []
  frames : List Int := []
  templateOpen : Nat := 0
  jsx : List JsxFrame := []
  prev : Option Text := none
  regexMisses : Nat := 0
  strayTicks : Nat := 0
  sawGenerator : Bool := false
  sawAsync : Bool
  i : Nat := 0

/-- The spans with one more, which is recorded outside of templates only. -/
def JsState.record (s : JsState) (span : Span) : List Span := if s.frames = [] then s.spans ++ [span] else s.spans

/-- The token before is this one. -/
def JsState.after (s : JsState) (token : String) : Bool := s.prev = some (units token)

section

variable (U : Unicode) (text : Text) (java htmlComments : Bool) (opensJsx : Nat → Bool)

/-! ## Turns -/

/-- The text or the tag of a JSX element; `outer` is what it stands in. -/
def markupTurn (s : JsState) (markup : JsxFrame) (outer : List JsxFrame) : JsState :=
  if isAt text s.i '{' then
    { s with
      jsx := { markup with resume := markup.mode, mode := .expression, braces := 1 } :: outer
      prev := some [ch '{']
      i := s.i + 1 }
  else if markup.mode = .text && isAt text s.i '<' then
    { s with
      jsx := { markup with mode := .tag, closing := isAt text (s.i + 1) '/' } :: outer
      i := s.i + if isAt text (s.i + 1) '/' then 2 else 1 }
  else if markup.mode = .tag && (isAt text s.i '"' || isAt text s.i '\'') then
    let stop := ((indexOf text (slice text s.i (s.i + 1)) (s.i + 1)).map (· + 1)).getD text.length
    { s with spans := s.record (s.i, stop), i := stop }
  else if markup.mode = .tag && isAt text s.i '>' then
    let depth := markup.depthBehind (isAt text (s.i - 1) '/')
    if depth = 0 then { s with jsx := outer, prev := some [], i := s.i + 1 }
    else { s with jsx := { markup with depth, mode := .text } :: outer, i := s.i + 1 }
  else
    let stop := pass text (fun u => ! if markup.mode = .text then u = ch '<' || u = ch '{' else
      u = ch '>' || u = ch '{' || u = ch '"' || u = ch '\'') (s.i + 1)
    { s with spans := s.record (s.i, stop), i := stop }

/-- The text of a template; `rest` are the frames around it. -/
def templateTurn (s : JsState) (rest : List Int) : JsState :=
  if isAt text s.i '\\' then { s with i := s.i + 2 }
  else if isAt text s.i '$' && isAt text (s.i + 1) '{' then
    { s with frames := 1 :: s.frames, prev := some [ch '{'], i := s.i + 2 }
  else if isAt text s.i '`' then
    if rest = [] then
      { s with frames := [], spans := s.spans ++ [(s.templateOpen + 1, s.i)], prev := some [], i := s.i + 1 }
    else { s with frames := rest, i := s.i + 1 }
  else { s with i := s.i + 1 }

def jsHtmlComment (s : JsState) : JsState :=
  let start := s.i + if isAt text s.i '<' then 4 else 3
  let stop := (lineEnd text start false).getD text.length
  { s with spans := s.record (start, stop), i := stop }

/-- A block comment that never closes is a regular expression read as one, unless that happened too often. -/
def jsComment (s : JsState) : JsState :=
  let block := isAt text (s.i + 1) '*'
  let close := if block then indexOf text (units "*/") (s.i + 2) else lineEnd text (s.i + 2) java
  if close.isNone && block && s.frames = [] && s.strayTicks < MAX_STRAY_TICKS then
    { s with strayTicks := s.strayTicks + 1, prev := some [], i := s.i + 2 }
  else
    let bodyEnd := close.getD text.length
    { s with spans := s.record (s.i + 2, bodyEnd), i := if block && close.isSome then bodyEnd + 2 else bodyEnd }

def jsSlash (s : JsState) : JsState :=
  let mayStart := regexMayStart U s.prev || ((s.after "<" || s.after ">") && spacedOperatorBefore text s.i)
  match if mayStart && s.regexMisses < MAX_REGEX_MISSES then regexClose text s.i java else none with
  | none =>
    { s with regexMisses := if mayStart then s.regexMisses + 1 else s.regexMisses, prev := some [ch '/'], i := s.i + 1 }
  | some close =>
    { s with spans := s.record (s.i + 1, close), prev := some [], i := pass text isLower (close + 1) }

def jsString (s : JsState) : JsState :=
  match lineStringEnd text s.i java with
  | none => { s with prev := some (slice text s.i (s.i + 1)), i := s.i + 1 }
  | some stop =>
    let body := stringBody text s.i stop
    { s with
      spans := if isBareName U (slice text body.1 body.2) then s.spans else s.record body
      prev := some []
      i := stop }

def jsBrace (s : JsState) : JsState :=
  let delta : Int := if isAt text s.i '{' then 1 else -1
  { s with
    jsx := if s.frames = [] then
        s.jsx.modifyHead fun markup =>
          if markup.mode = .expression then
            { markup with
              braces := markup.braces + delta
              mode := if markup.braces + delta = 0 then markup.resume else .expression }
          else markup
      else s.jsx
    frames := match s.frames with
      | [] => []
      | top :: rest => if top + delta = 0 then rest else (top + delta) :: rest
    prev := some (slice text s.i (s.i + 1))
    i := s.i + 1 }

def jsWord (s : JsState) : JsState :=
  let stop := wordEnd U text s.i
  let word := slice text s.i stop
  let sawAsync := s.sawAsync || (names ["async", "import", "export"]).elem word
  let operandBefore := s.prev ≠ none && ! regexMayStart U s.prev
  let keyword :=
    if word = units "of" then operandBefore
    else ! operandBefore && if word = units "yield" then s.sawGenerator else sawAsync
  { s with
    sawAsync
    prev := some (
      if s.after "." || (s.after "#" && isAt text (s.i - 1) '#') then []
      else if CONTEXTUAL_WORDS.elem word then if keyword then [ch '/'] else []
      else if word = units "default" && s.after "export" then [ch ';']
      else word)
    i := stop }

/-- Numbers and punctuation. -/
def jsOther (s : JsState) : JsState :=
  let operandBefore := s.prev ≠ none && ! regexMayStart U s.prev
  if (text[s.i]?).any isDigit then
    { s with prev := some [], i := pass text (fun u => isWord u || u = ch '.') (s.i + 1) }
  else if isAt text s.i '=' && isAt text (s.i + 1) '>' then { s with prev := some (units "=>"), i := s.i + 2 }
  else if isAt text s.i '.' && isAt text (s.i + 1) '.' && isAt text (s.i + 2) '.' then
    { s with prev := some (units "..."), i := s.i + 3 }
  else if (isAt text s.i '+' && isAt text (s.i + 1) '+' || isAt text s.i '-' && isAt text (s.i + 1) '-') &&
      operandBefore then
    { s with prev := some [], i := s.i + 2 }
  else if isAt text s.i '!' && ! isAt text (s.i + 1) '=' && operandBefore then { s with i := s.i + 1 }
  else
    { s with
      sawGenerator := s.sawGenerator || (isAt text s.i '*' &&
        (s.prev = none || s.after "function" || s.after "\x7b" || s.after "\x7d" || s.after "," || s.after ";"))
      prev := some (slice text s.i (s.i + 1))
      i := s.i + 1 }

/-- A token of code, outside of templates or in an expression of one. -/
def codeTurn (s : JsState) : JsState :=
  if (text[s.i]?).any isTrimmed then
    { s with regexMisses := if (text[s.i]?).any (isLineTerminator java) then 0 else s.regexMisses, i := s.i + 1 }
  else if htmlComments && (startsAt text "<!--" s.i || (startsAt text "-->" s.i && atLineStart text s.i)) then
    jsHtmlComment text s
  else if isAt text s.i '/' && isAt text (s.i + 1) '/' && isUrlScheme text s.i then
    { s with prev := some [], i := s.i + 2 }
  else if isAt text s.i '/' && (isAt text (s.i + 1) '/' || isAt text (s.i + 1) '*') then jsComment text java s
  else if isAt text s.i '/' then jsSlash U text java s
  else
    match if java && (List.replicate 3 0x22).isPrefixOf (text.drop s.i) then textBlockEnd text s.i else none with
    | some stop => { s with spans := s.record (s.i + 3, stop - 3), prev := some [], i := stop }
    | none =>
      if isAt text s.i '\'' || isAt text s.i '"' then jsString U text java s
      else if isAt text s.i '`' then
        { s with
          templateOpen := if s.frames = [] then s.i else s.templateOpen
          frames := -1 :: s.frames
          i := s.i + 1 }
      else if isAt text s.i '{' || isAt text s.i '}' then jsBrace text s
      else if wordStartsAt U text s.i then jsWord U text s
      else jsOther U text s

/-- What stands outside of templates, in code. -/
def outsideTurn (s : JsState) : JsState :=
  if isAt text s.i '<' && regexMayStart U s.prev && opensJsx s.i then { s with jsx := {} :: s.jsx, i := s.i + 1 }
  else codeTurn U text java htmlComments s

/-- What stands at `s.i`, which is in the text. -/
def tokenTurn (s : JsState) : JsState :=
  match s.frames with
  | [] =>
    match s.jsx with
    | [] => outsideTurn U text java htmlComments opensJsx s
    | markup :: outer =>
      if markup.mode = .expression then outsideTurn U text java htmlComments opensJsx s
      else markupTurn text s markup outer
  | top :: rest => if top = -1 then templateTurn text s rest else codeTurn U text java htmlComments s

/-- A turn of the loop. -/
def jsTurn (s : JsState) : JsState ⊕ List Span :=
  if s.i < text.length then .inl (tokenTurn U text java htmlComments opensJsx s)
  else if s.frames = [] then .inr s.spans
  else if MAX_STRAY_TICKS ≤ s.strayTicks then .inr (s.spans ++ [(s.templateOpen + 1, text.length)])
  else
    -- A template that never closes is a stray backtick: lex on as text.
    .inl { s with strayTicks := s.strayTicks + 1, frames := [], i := s.templateOpen + 1, prev := some [] }

end

/-! ## What a turn keeps -/

variable {U : Unicode} {text : Text} {java htmlComments : Bool} {opensJsx : Nat → Bool} {s t : JsState}

/-- The spans stand in order in front of what is read: of `i`, or of the outermost template that is open. -/
structure JsShape (text : Text) (s : JsState) : Prop where
  code : s.frames = [] → Ordered 0 s.i s.spans ∧ s.i ≤ text.length
  template : s.frames ≠ [] → Ordered 0 (s.templateOpen + 1) s.spans ∧ s.templateOpen < s.i ∧ s.templateOpen < text.length

/-- How often the loop may still go back, then how far it is from the end. -/
def jsRank (text : Text) (s : JsState) : Nat × Nat := (MAX_STRAY_TICKS - s.strayTicks, text.length - s.i)

/-- A turn lowers the rank and keeps the shape. -/
structure JsMoves (text : Text) (s t : JsState) : Prop where
  rank : Prod.Lex (· < ·) (· < ·) (jsRank text t) (jsRank text s)
  shape : JsShape text s → JsShape text t

theorem rank_of_lt (hticks : t.strayTicks = s.strayTicks) (hi : s.i < text.length) (hlt : s.i < t.i) :
    Prod.Lex (· < ·) (· < ·) (jsRank text t) (jsRank text s) := by
  rw [jsRank, jsRank, hticks]
  exact .right _ (by omega)

def Records (s t : JsState) : Prop :=
  t.spans = s.spans ∨ ∃ span, t.spans = s.record span ∧ s.i ≤ span.1 ∧ span.1 ≤ span.2 ∧ span.2 ≤ t.i

theorem Records.ordered (h : Records s t) (hlt : s.i < t.i) (hframes : s.frames = []) (hs : Ordered 0 s.i s.spans) :
    Ordered 0 t.i t.spans := by
  rcases h with heq | ⟨span, heq, hstart, hspan, hstop⟩
  · rw [heq]
    exact hs.mono hlt.le
  · rw [heq, JsState.record, if_pos hframes]
    exact (hs.concat hstart hspan).mono hstop

theorem Records.spans_eq (h : Records s t) (hframes : s.frames ≠ []) : t.spans = s.spans := by
  rcases h with heq | ⟨span, heq, -⟩
  · exact heq
  · rw [heq, JsState.record, if_neg hframes]

theorem JsMoves.token (hframes : t.frames = s.frames) (hopen : t.templateOpen = s.templateOpen)
    (hticks : t.strayTicks = s.strayTicks) (hi : s.i < text.length) (hlt : s.i < t.i) (hle : t.i ≤ text.length)
    (hspans : Records s t) : JsMoves text s t := by
  refine ⟨rank_of_lt hticks hi hlt, fun h => ⟨fun hnil => ?_, fun hne => ?_⟩⟩
  · rw [hframes] at hnil
    exact ⟨hspans.ordered hlt hnil (h.code hnil).1, hle⟩
  · rw [hframes] at hne
    obtain ⟨hordered, hbehind, hstart⟩ := h.template hne
    rw [hopen, hspans.spans_eq hne]
    exact ⟨hordered, hbehind.trans hlt, hstart⟩

theorem markupTurn_moves {markup : JsxFrame} {outer : List JsxFrame} (hi : s.i < text.length) :
    JsMoves text s (markupTurn text s markup outer) := by
  rw [markupTurn]
  split
  · exact .token rfl rfl rfl hi (Nat.lt_succ_self _) hi (.inl rfl)
  split
  · next hopen =>
    refine .token rfl rfl rfl hi ?_ ?_ (.inl rfl)
    · dsimp only
      split <;> omega
    · dsimp only
      split
      · next hslash => exact lt_length_of_isAt hslash
      · exact hi
  split
  · next hquote =>
    dsimp only
    cases hclose : indexOf text (slice text s.i (s.i + 1)) (s.i + 1) with
    | none => exact .token rfl rfl rfl hi hi (Nat.le_refl _) (.inr ⟨_, rfl, Nat.le_refl _, hi.le, Nat.le_refl _⟩)
    | some close =>
      obtain ⟨hstart, hend, -⟩ := firstAt_spec hclose
      have hlt : s.i < close + 1 := hstart.trans_lt (Nat.lt_succ_self _) |>.trans' (Nat.lt_succ_self _)
      exact .token rfl rfl rfl hi hlt hend (.inr ⟨_, rfl, Nat.le_refl _, hlt.le, Nat.le_refl _⟩)
  split
  · dsimp only
    split
    · exact .token rfl rfl rfl hi (Nat.lt_succ_self _) hi (.inl rfl)
    · exact .token rfl rfl rfl hi (Nat.lt_succ_self _) hi (.inl rfl)
  · dsimp only
    refine .token rfl rfl rfl hi ?_ ?_ (.inr ⟨_, rfl, Nat.le_refl _, ?_, Nat.le_refl _⟩)
    · exact Nat.lt_of_succ_le (le_pass _ _ _)
    · exact pass_le _ _ hi
    · exact (Nat.le_succ _).trans (le_pass _ _ _)

/-- A template may overshoot the text by an escape; outside of it nothing does. -/
theorem templateTurn_moves {top : Int} {rest : List Int} (hframes : s.frames = top :: rest) (hi : s.i < text.length) :
    JsMoves text s (templateTurn text s rest) := by
  have hne : s.frames ≠ [] := hframes ▸ List.cons_ne_nil _ _
  have inside : ∀ t : JsState, t.spans = s.spans → t.templateOpen = s.templateOpen → t.strayTicks = s.strayTicks →
      t.frames ≠ [] → s.i < t.i → JsMoves text s t := by
    intro t hspans hopen hticks ht hlt
    refine ⟨rank_of_lt hticks hi hlt, fun h => ⟨fun hnil => absurd hnil ht, fun _ => ?_⟩⟩
    obtain ⟨hordered, hbehind, hstart⟩ := h.template hne
    rw [hspans, hopen]
    exact ⟨hordered, hbehind.trans hlt, hstart⟩
  rw [templateTurn]
  split
  · exact inside _ rfl rfl rfl hne (Nat.lt_add_of_pos_right (by decide))
  split
  · exact inside _ rfl rfl rfl (List.cons_ne_nil _ _) (Nat.lt_add_of_pos_right (by decide))
  split
  · split
    · refine ⟨rank_of_lt rfl hi (Nat.lt_succ_self _), fun h => ⟨fun _ => ?_, fun hne => absurd rfl hne⟩⟩
      obtain ⟨hordered, hbehind, -⟩ := h.template hne
      exact ⟨(@Ordered.concat _ _ _ (s.templateOpen + 1, s.i) hordered (Nat.le_refl _) hbehind).mono (Nat.le_succ _), hi⟩
    · next hrest => exact inside _ rfl rfl rfl hrest (Nat.lt_succ_self _)
  · exact inside _ rfl rfl rfl hne (Nat.lt_succ_self _)

theorem jsHtmlComment_moves (hi : s.i < text.length)
    (hcomment : (startsAt text "<!--" s.i || (startsAt text "-->" s.i && atLineStart text s.i)) = true) :
    JsMoves text s (jsHtmlComment text s) := by
  have hstart : s.i + (if isAt text s.i '<' = true then 4 else 3) ≤ text.length := by
    rcases (Bool.or_eq_true _ _).mp hcomment with hopens | hcloses
    · have hend := startsAt_bounds (by decide) hopens
      have hlength : (units "<!--").length = 4 := by decide
      split <;> omega
    · have hstarts := ((Bool.and_eq_true _ _).mp hcloses).1
      have hend := startsAt_bounds (by decide) hstarts
      have hlength : (units "-->").length = 3 := by decide
      split
      · next hangle =>
        have hdash := isAt_of_startsAt hstarts (k := 0) (c := '-') rfl
        cases (of_decide_eq_true hangle).symm.trans (of_decide_eq_true hdash)
      · omega
  have hpos : 0 < if isAt text s.i '<' = true then 4 else 3 := by split <;> omega
  rw [jsHtmlComment]
  cases hclose : lineEnd text (s.i + if isAt text s.i '<' = true then 4 else 3) false with
  | none =>
    exact .token rfl rfl rfl hi hi (Nat.le_refl _) (.inr ⟨_, rfl, Nat.le_add_right _ _, hstart, Nat.le_refl _⟩)
  | some close =>
    obtain ⟨hle, hend⟩ := lineEnd_bounds hclose
    exact .token rfl rfl rfl hi (by dsimp only [Option.getD]; omega) hend.le
      (.inr ⟨_, rfl, Nat.le_add_right _ _, hle, Nat.le_refl _⟩)

theorem jsComment_moves (hi : s.i < text.length)
    (hcomment : (isAt text (s.i + 1) '/' || isAt text (s.i + 1) '*') = true) :
    JsMoves text s (jsComment text java s) := by
  have hnext : s.i + 1 < text.length := ((Bool.or_eq_true _ _).mp hcomment).elim lt_length_of_isAt lt_length_of_isAt
  have hbounds : ∀ close, (if isAt text (s.i + 1) '*' = true then indexOf text (units "*/") (s.i + 2)
      else lineEnd text (s.i + 2) java) = some close →
      s.i + 2 ≤ close ∧ close ≤ text.length ∧ (isAt text (s.i + 1) '*' = true → close + 2 ≤ text.length) := by
    intro close hclose
    split at hclose
    · obtain ⟨hle, hend⟩ := indexOf_bounds (by decide) hclose
      exact ⟨hle, (Nat.le_add_right _ _).trans hend, fun _ => hend⟩
    · next hline =>
      obtain ⟨hle, hend⟩ := lineEnd_bounds hclose
      exact ⟨hle, hend.le, fun hblock => absurd hblock hline⟩
  rw [jsComment]
  dsimp only
  generalize (if isAt text (s.i + 1) '*' = true then indexOf text (units "*/") (s.i + 2)
    else lineEnd text (s.i + 2) java) = close at hbounds
  split
  · next hstray =>
    rw [Bool.and_eq_true, Bool.and_eq_true, decide_eq_true_eq, decide_eq_true_eq] at hstray
    refine ⟨.left _ _ (by dsimp only; omega), fun h => ⟨fun hnil => ?_, fun hne => absurd hstray.1.2 hne⟩⟩
    exact ⟨(h.code hnil).1.mono (Nat.le_add_right _ _), hnext⟩
  cases close with
  | none =>
    rw [Option.isSome_none, Bool.and_false, if_neg Bool.false_ne_true]
    exact .token rfl rfl rfl hi hi (Nat.le_refl _) (.inr ⟨_, rfl, Nat.le_add_right _ _, hnext, Nat.le_refl _⟩)
  | some close =>
    obtain ⟨hle, hend, hblock⟩ := hbounds close rfl
    have hlt : s.i < close := (Nat.lt_add_of_pos_right (by decide)).trans_le hle
    rw [Option.isSome_some, Bool.and_true]
    split
    · next hstar =>
      exact .token rfl rfl rfl hi (hlt.trans_le (Nat.le_add_right _ _)) (hblock hstar)
        (.inr ⟨_, rfl, Nat.le_add_right _ _, hle, Nat.le_add_right _ _⟩)
    · exact .token rfl rfl rfl hi hlt hend (.inr ⟨_, rfl, Nat.le_add_right _ _, hle, Nat.le_refl _⟩)

theorem jsSlash_moves (hi : s.i < text.length) : JsMoves text s (jsSlash U text java s) := by
  rw [jsSlash]
  split
  · exact .token rfl rfl rfl hi (Nat.lt_succ_self _) hi (.inl rfl)
  · next close hclose =>
    split at hclose
    · obtain ⟨hlt, hend⟩ := regexClose_bounds hclose
      have hpass := le_pass text isLower (close + 1)
      exact .token rfl rfl rfl hi (hlt.trans (Nat.lt_of_succ_le hpass)) (pass_le _ _ hend)
        (.inr ⟨_, rfl, Nat.le_succ _, hlt, (Nat.le_succ close).trans hpass⟩)
    · cases hclose

theorem jsString_moves (hi : s.i < text.length) : JsMoves text s (jsString U text java s) := by
  rw [jsString]
  split
  · exact .token rfl rfl rfl hi (Nat.lt_succ_self _) hi (.inl rfl)
  · next stop hstop =>
    obtain ⟨hlt, hend⟩ := lineStringEnd_bounds hstop
    obtain ⟨hfirst, hbody, hlast⟩ := @stringBody_bounds text _ _ hlt
    refine .token rfl rfl rfl hi hlt hend ?_
    rw [Records]
    dsimp only
    split
    · exact .inl rfl
    · exact .inr ⟨_, rfl, by omega, hbody, hlast⟩

theorem jsWord_moves (hi : s.i < text.length) : JsMoves text s (jsWord U text s) :=
  .token rfl rfl rfl hi (wordEnd_bounds hi).1 (wordEnd_bounds hi).2 (.inl rfl)

theorem jsOther_moves (hi : s.i < text.length) : JsMoves text s (jsOther U text s) := by
  rw [jsOther]
  split
  · exact .token rfl rfl rfl hi (Nat.lt_of_succ_le (le_pass _ _ _)) (pass_le _ _ hi) (.inl rfl)
  split
  · next harrow =>
    exact .token rfl rfl rfl hi (Nat.lt_add_of_pos_right (by decide))
      (lt_length_of_isAt ((Bool.and_eq_true _ _).mp harrow).2) (.inl rfl)
  split
  · next hdots =>
    exact .token rfl rfl rfl hi (Nat.lt_add_of_pos_right (by decide))
      (lt_length_of_isAt ((Bool.and_eq_true _ _).mp hdots).2) (.inl rfl)
  split
  · next htwice =>
    have hnext : s.i + 1 < text.length := by
      rcases (Bool.or_eq_true _ _).mp ((Bool.and_eq_true _ _).mp htwice).1 with hplus | hminus
      · exact lt_length_of_isAt ((Bool.and_eq_true _ _).mp hplus).2
      · exact lt_length_of_isAt ((Bool.and_eq_true _ _).mp hminus).2
    exact .token rfl rfl rfl hi (Nat.lt_add_of_pos_right (by decide)) hnext (.inl rfl)
  split
  · exact .token rfl rfl rfl hi (Nat.lt_succ_self _) hi (.inl rfl)
  · exact .token rfl rfl rfl hi (Nat.lt_succ_self _) hi (.inl rfl)

/-- A bracket may end an expression, never a template: its spans stay as they are. -/
theorem jsBrace_moves (hi : s.i < text.length) : JsMoves text s (jsBrace text s) := by
  refine ⟨rank_of_lt rfl hi (Nat.lt_succ_self _), fun h => ?_⟩
  cases hframes : s.frames with
  | nil =>
    have hsame : (jsBrace text s).frames = [] := by rw [jsBrace, hframes]
    exact ⟨fun _ => ⟨(h.code hframes).1.mono (Nat.le_succ _), hi⟩, fun hne => absurd hsame hne⟩
  | cons top rest =>
    obtain ⟨hordered, hbehind, hstart⟩ := h.template (hframes ▸ List.cons_ne_nil _ _)
    exact ⟨fun _ => ⟨hordered.mono (Nat.succ_le_succ hbehind.le), hi⟩,
      fun _ => ⟨hordered, Nat.lt_succ_of_lt hbehind, hstart⟩⟩

theorem codeTurn_moves (hi : s.i < text.length) : JsMoves text s (codeTurn U text java htmlComments s) := by
  rw [codeTurn]
  split
  · exact .token rfl rfl rfl hi (Nat.lt_succ_self _) hi (.inl rfl)
  split
  · next hcomment => exact jsHtmlComment_moves hi ((Bool.and_eq_true _ _).mp hcomment).2
  split
  · next hurl =>
    exact .token rfl rfl rfl hi (Nat.lt_add_of_pos_right (by decide))
      (lt_length_of_isAt ((Bool.and_eq_true _ _).mp ((Bool.and_eq_true _ _).mp hurl).1).2) (.inl rfl)
  split
  · next hcomment => exact jsComment_moves hi ((Bool.and_eq_true _ _).mp hcomment).2
  split
  · exact jsSlash_moves hi
  split
  · next stop hstop =>
    split at hstop
    · obtain ⟨hlt, hend⟩ := textBlockEnd_bounds hstop
      exact .token rfl rfl rfl hi (by dsimp only; omega) hend
        (.inr ⟨_, rfl, Nat.le_add_right _ _, by dsimp only; omega, Nat.sub_le _ _⟩)
    · cases hstop
  split
  · exact jsString_moves hi
  split
  · refine ⟨rank_of_lt rfl hi (Nat.lt_succ_self _), fun h => ⟨fun hnil => (List.cons_ne_nil _ _ hnil).elim, fun _ => ?_⟩⟩
    dsimp only
    split
    · next hnil => exact ⟨(h.code hnil).1.mono (Nat.le_succ _), Nat.lt_succ_self _, hi⟩
    · next hne =>
      obtain ⟨hordered, hbehind, hstart⟩ := h.template hne
      exact ⟨hordered, Nat.lt_succ_of_lt hbehind, hstart⟩
  split
  · exact jsBrace_moves hi
  split
  · exact jsWord_moves hi
  · exact jsOther_moves hi

theorem outsideTurn_moves (hi : s.i < text.length) :
    JsMoves text s (outsideTurn U text java htmlComments opensJsx s) := by
  rw [outsideTurn]
  split
  · exact .token rfl rfl rfl hi (Nat.lt_succ_self _) hi (.inl rfl)
  · exact codeTurn_moves hi

theorem tokenTurn_moves (hi : s.i < text.length) :
    JsMoves text s (tokenTurn U text java htmlComments opensJsx s) := by
  rw [tokenTurn]
  split
  · split
    · exact outsideTurn_moves hi
    · split
      · exact outsideTurn_moves hi
      · exact markupTurn_moves hi
  · next top rest hframes =>
    split
    · exact templateTurn_moves hframes hi
    · exact codeTurn_moves hi

/-! ## The whole run -/

/-- Every turn lowers the rank: a template that never closes is given back `MAX_STRAY_TICKS` times at most. -/
theorem falls_jsTurn (U : Unicode) (text : Text) (java htmlComments : Bool) (opensJsx : Nat → Bool) :
    Falls (jsTurn U text java htmlComments opensJsx) (jsRank text) := by
  intro s t ht
  rw [jsTurn] at ht
  split at ht
  · next hi =>
    cases ht
    exact (tokenTurn_moves hi).rank
  split at ht
  · cases ht
  split at ht
  · cases ht
  · next hticks =>
    cases ht
    exact .left _ _ (Nat.sub_succ_lt_self _ _ (Nat.lt_of_not_le hticks))

theorem jsTurn_shape (h : JsShape text s) (ht : jsTurn U text java htmlComments opensJsx s = .inl t) : JsShape text t := by
  rw [jsTurn] at ht
  split at ht
  · next hi =>
    cases ht
    exact (tokenTurn_moves hi).shape h
  split at ht
  · cases ht
  split at ht
  · cases ht
  · next hne _ =>
    cases ht
    exact ⟨fun _ => ⟨(h.template hne).1, (h.template hne).2.2⟩, fun hne => absurd rfl hne⟩

theorem jsTurn_stops {spans : List Span} (h : JsShape text s)
    (hstop : jsTurn U text java htmlComments opensJsx s = .inr spans) : Ordered 0 text.length spans := by
  rw [jsTurn] at hstop
  split at hstop
  · cases hstop
  split at hstop
  · next hnil =>
    cases hstop
    exact (h.code hnil).1.mono (h.code hnil).2
  split at hstop
  · next hne _ =>
    cases hstop
    obtain ⟨hordered, -, hstart⟩ := h.template hne
    exact @Ordered.concat _ _ _ (s.templateOpen + 1, text.length) hordered (Nat.le_refl _) hstart
  · cases hstop

/-- Where the loop starts: behind the first line, if it starts with `#!`. -/
def jsStart (text : Text) (java module : Bool) : JsState :=
  if ! java && startsAt text "#!" 0 then
    let stop := (lineEnd text 2 false).getD text.length
    { sawAsync := module, spans := [(2, stop)], i := stop }
  else { sawAsync := module }

theorem jsStart_shape (java module : Bool) : JsShape text (jsStart text java module) := by
  rw [jsStart]
  split
  · next hhash =>
    have hlength := startsAt_bounds (by decide) ((Bool.and_eq_true _ _).mp hhash).2
    have htwo : (units "#!").length = 2 := by decide
    refine ⟨fun _ => ?_, fun hne => absurd rfl hne⟩
    cases hline : lineEnd text 2 false with
    | none => exact ⟨⟨Nat.zero_le _, by dsimp only [Option.getD]; omega, Nat.le_refl _⟩, Nat.le_refl _⟩
    | some stop =>
      obtain ⟨hle, hend⟩ := lineEnd_bounds hline
      exact ⟨⟨Nat.zero_le _, hle, Nat.le_refl _⟩, hend.le⟩
  · exact ⟨fun _ => ⟨Nat.le_refl _, Nat.zero_le _⟩, fun hne => absurd rfl hne⟩

def jsNonCodeWith (U : Unicode) (text : Text) (java htmlComments module : Bool) (opensJsx : Nat → Bool) : List Span :=
  run (jsTurn U text java htmlComments opensJsx) (jsRank text) (falls_jsTurn U text java htmlComments opensJsx)
    (jsStart text java module)

theorem jsNonCodeWith_ordered {module : Bool} :
    Ordered 0 text.length (jsNonCodeWith U text java htmlComments module opensJsx) :=
  run_invariant (falls_jsTurn U text java htmlComments opensJsx) (fun _ _ => jsTurn_shape) (fun _ _ => jsTurn_stops)
    (jsStart_shape java module)

end Haive.Rag

import Haive.Lib.Redelivery
import Haive.Lib.Units

/-!
# Clean transcript

`web/src/lib/clean-transcript.ts`, and the frames that `web/src/components/terminal/CliStreamViewer.tsx`
hands to it: model text and the user's own turns, as the Clean tab of a running CLI shows them. A turn
gets in by the sender's own append or by the server's `steer` frame, whichever comes first.
-/

namespace Haive.Terminal

open Lib.Units

abbrev Text := List UInt16

inductive SteerStatus
  | sent
  | consumed
  | unconsumed
  | error
  | historical
  deriving DecidableEq

structure RestoredSteer where
  id : Text
  text : Text
  deriving DecidableEq

structure UserTurn where
  id : Text
  text : Text
  status : SteerStatus
  error : Option Text := none
  deriving DecidableEq

inductive TranscriptSegment
  | model (text : Text)
  | user (turn : UserTurn)
  | history (steers : List RestoredSteer)
  deriving DecidableEq

/-- `s.kind === 'user' && p(s)`. -/
def TranscriptSegment.isUserWith (p : UserTurn → Bool) : TranscriptSegment → Bool
  | .user turn => p turn
  | _ => false

/-! ## The operations -/

def appendModelText (segments : List TranscriptSegment) (chunk : Text) : List TranscriptSegment :=
  let text := chunk.filter (· ≠ 13)
  if text = [] then segments
  else
    match segments.getLast? with
    | some (.model last) =>
      let sep := if [10, 10].isSuffixOf last then [] else if [10].isSuffixOf last then [10] else [10, 10]
      segments.dropLast ++ [.model (last ++ sep ++ text)]
    | _ => segments ++ [.model text]

def appendUserTurn (segments : List TranscriptSegment) (turn : UserTurn) : List TranscriptSegment :=
  if turn.id ≠ [] ∧ segments.any (·.isUserWith (·.id = turn.id)) then segments
  else segments ++ [.user turn]

def applySteerFrame (segments : List TranscriptSegment) (id text : Text) : List TranscriptSegment :=
  if id ≠ [] ∧ segments.any (·.isUserWith (·.id = id)) then segments
  -- the text is compared for a frame with an id as well
  else if segments.any (·.isUserWith fun turn => turn.id = [] ∧ turn.text = text) then segments
  else appendUserTurn segments { id := id, text := text, status := .sent }

def UserTurn.settle (hit : UserTurn → Bool) (status : SteerStatus) (turn : UserTurn) : UserTurn :=
  if hit turn ∧ turn.status = .sent then { turn with status := status } else turn

/-- The `map` over the turns that are still `sent`. Where none is hit the source gives back the same
array, which is the same value. -/
def settleSent (hit : UserTurn → Bool) (status : SteerStatus) (segments : List TranscriptSegment) :
    List TranscriptSegment :=
  segments.map fun segment =>
    match segment with
    | .user turn => .user (turn.settle hit status)
    | _ => segment

def markSteerConsumed (segments : List TranscriptSegment) (id : Text) : List TranscriptSegment :=
  if id = [] then segments else settleSent (·.id = id) .consumed segments

def markPendingUnconsumed (segments : List TranscriptSegment) : List TranscriptSegment :=
  settleSent (fun _ => true) .unconsumed segments

/-! ## What reaches the viewer -/

/-- The frames of the server that change the transcript. -/
inductive Frame
  | output (stream data : Text)
  | steer (id text : Text)
  | steerConsumed (id : Text)
  | exit
  deriving DecidableEq

/-- The branches of `ws.onmessage`. -/
def onFrame (segments : List TranscriptSegment) : Frame → List TranscriptSegment
  | .output stream data => if stream = units "text" ∧ 0 < data.length then appendModelText segments data else segments
  | .steer id text => if 0 < text.length then applySteerFrame segments id text else segments
  | .steerConsumed id => if id ≠ [] then markSteerConsumed segments id else segments
  | .exit => markPendingUnconsumed segments

/-- How a send of this viewer came back. -/
inductive Send
  | succeeded (id text : Text)
  | failed (id text error : Text)
  deriving DecidableEq

def onSend (segments : List TranscriptSegment) : Send → List TranscriptSegment
  | .succeeded id text => appendUserTurn segments { id := id, text := text, status := .sent }
  | .failed id text error =>
    appendUserTurn segments { id := id, text := text, status := .error, error := some error }

abbrev Event := Frame ⊕ Send

def onEvent (segments : List TranscriptSegment) : Event → List TranscriptSegment
  | .inl frame => onFrame segments frame
  | .inr send => onSend segments send

def shown (events : List Event) : List TranscriptSegment := events.foldl onEvent []

/-! ## The user's turns -/

def userTurns (segments : List TranscriptSegment) : List UserTurn :=
  segments.filterMap fun segment =>
    match segment with
    | .user turn => some turn
    | _ => none

def turnsOf (id : Text) (segments : List TranscriptSegment) : List SteerStatus :=
  ((userTurns segments).filter (·.id = id)).map (·.status)

def idless (segments : List TranscriptSegment) : List Text :=
  ((userTurns segments).filter (·.id = [])).map (·.text)

variable {segments : List TranscriptSegment} {id : Text}

theorem any_isUserWith (p : UserTurn → Bool) :
    segments.any (·.isUserWith p) = (userTurns segments).any p := by
  induction segments with
  | nil => rfl
  | cons segment segments ih =>
    cases segment with
    | user turn => exact congrArg (p turn || ·) ih
    | model text => exact ih
    | history steers => exact ih

@[simp] theorem userTurns_append (a b : List TranscriptSegment) :
    userTurns (a ++ b) = userTurns a ++ userTurns b := List.filterMap_append

@[simp] theorem userTurns_appendModelText (segments : List TranscriptSegment) (chunk : Text) :
    userTurns (appendModelText segments chunk) = userTurns segments := by
  rw [appendModelText]
  simp only
  split
  · rfl
  · split
    · next last hlast =>
      obtain ⟨before, rfl⟩ := List.getLast?_eq_some_iff.mp hlast
      rw [List.dropLast_concat, userTurns_append, userTurns_append]
      rfl
    · rw [userTurns_append]
      exact List.append_nil _

theorem userTurns_settleSent (hit : UserTurn → Bool) (status : SteerStatus) (segments : List TranscriptSegment) :
    userTurns (settleSent hit status segments) = (userTurns segments).map (·.settle hit status) := by
  induction segments with
  | nil => rfl
  | cons segment segments ih =>
    cases segment with
    | user turn => exact congrArg (turn.settle hit status :: ·) ih
    | model text => exact ih
    | history steers => exact ih

theorem any_id : segments.any (·.isUserWith (·.id = id)) = !(turnsOf id segments).isEmpty := by
  rw [any_isUserWith, turnsOf]
  induction userTurns segments with
  | nil => rfl
  | cons turn turns ih =>
    by_cases hid : turn.id = id
    · simp [hid]
    · simp [hid, ih]

theorem any_idless {text : Text} :
    segments.any (·.isUserWith fun turn => turn.id = [] ∧ turn.text = text) = true ↔ text ∈ idless segments := by
  rw [any_isUserWith, List.any_eq_true, idless]
  simp only [List.mem_map, List.mem_filter, decide_eq_true_eq, and_assoc]

end Haive.Terminal

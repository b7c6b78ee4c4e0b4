import Haive.Lib.Cuts
import Haive.Terminal.CleanTranscript
import Mathlib

/-!
# Steer turns

The turn of one steer, whatever arrives first. `turnsOf_onEvent` is what one event does to the turns
with one id; `settles_iff` says when a whole run leaves the one turn that the frames call for.
-/

namespace Haive.Terminal

variable {segments : List TranscriptSegment} {events : List Event} {frames : List Frame} {id text : Text}

/-! ## One event -/

@[simp] theorem settle_id (hit : UserTurn → Bool) (status : SteerStatus) (turn : UserTurn) :
    (turn.settle hit status).id = turn.id := by
  rw [UserTurn.settle]
  split <;> rfl

@[simp] theorem settle_text (hit : UserTurn → Bool) (status : SteerStatus) (turn : UserTurn) :
    (turn.settle hit status).text = turn.text := by
  rw [UserTurn.settle]
  split <;> rfl

def settled (status : SteerStatus) (now : SteerStatus) : SteerStatus := if now = .sent then status else now

theorem turnsOf_settleSent (hit : Text → Bool) (status : SteerStatus) :
    turnsOf id (settleSent (hit ·.id) status segments) =
      if hit id then (turnsOf id segments).map (settled status) else turnsOf id segments := by
  rw [turnsOf, userTurns_settleSent, turnsOf]
  induction userTurns segments with
  | nil => simp
  | cons turn turns ih =>
    by_cases hid : turn.id = id
    · have hstatus : (turn.settle (hit ·.id) status).status =
          if hit id then settled status turn.status else turn.status := by
        rw [UserTurn.settle, hid]
        cases hit id with
        | false => simp
        | true =>
          simp only [true_and, settled, if_true]
          split <;> rfl
      simp only [List.map_cons, List.filter_cons, settle_id, hid, decide_true, if_true, hstatus, ih]
      split <;> rfl
    · simpa [hid] using ih

theorem idless_settleSent (hit : UserTurn → Bool) (status : SteerStatus) :
    idless (settleSent hit status segments) = idless segments := by
  rw [idless, userTurns_settleSent, idless]
  induction userTurns segments with
  | nil => rfl
  | cons turn turns ih => by_cases hid : turn.id = [] <;> simpa [hid] using ih

theorem turnsOf_appendUserTurn (hid : id ≠ []) (turn : UserTurn) :
    turnsOf id (appendUserTurn segments turn) =
      if turn.id = id ∧ turnsOf id segments = [] then [turn.status] else turnsOf id segments := by
  have hone : turnsOf id (segments ++ [.user turn]) =
      turnsOf id segments ++ if turn.id = id then [turn.status] else [] := by
    rw [turnsOf, userTurns_append, List.filter_append, List.map_append, turnsOf]
    congr 1
    by_cases heq : turn.id = id <;> simp [userTurns, heq]
  rw [appendUserTurn, any_id]
  by_cases heq : turn.id = id
  · subst heq
    by_cases hnone : turnsOf turn.id segments = []
    · simp [hone, hnone]
    · simp [hid, hnone]
  · have hother : ¬ (turn.id = id ∧ turnsOf id segments = []) := fun h => heq h.1
    rw [if_neg hother]
    split
    · rfl
    · rw [hone, if_neg heq, List.append_nil]

theorem idless_appendUserTurn (turn : UserTurn) :
    idless (appendUserTurn segments turn) = idless segments ++ if turn.id = [] then [turn.text] else [] := by
  have hone : idless (segments ++ [.user turn]) = idless segments ++ if turn.id = [] then [turn.text] else [] := by
    rw [idless, userTurns_append, List.filter_append, List.map_append, idless]
    congr 1
    by_cases heq : turn.id = [] <;> simp [userTurns, heq]
  rw [appendUserTurn]
  split
  · next h => rw [if_neg h.1, List.append_nil]
  · exact hone

theorem turnsOf_applySteerFrame (hid : id ≠ []) (id' text : Text) :
    turnsOf id (applySteerFrame segments id' text) =
      if id' = id ∧ turnsOf id segments = [] ∧ text ∉ idless segments then [.sent] else turnsOf id segments := by
  rw [applySteerFrame]
  split
  · next h =>
    rw [any_id] at h
    refine (if_neg fun hnew => ?_).symm
    rw [hnew.1, hnew.2.1] at h
    exact absurd h.2 Bool.false_ne_true
  · split
    · next h => exact (if_neg fun hnew => hnew.2.2 (any_idless.mp h)).symm
    · next h =>
      rw [turnsOf_appendUserTurn hid]
      simp only [any_idless.not.mp h, not_false_eq_true, and_true]

attribute [local instance] Lib.Units.lawfulBEq_units in
def turnsAfter (id : Text) (known : List Text) (turns : List SteerStatus) : Event → List SteerStatus
  | .inl (.output _ _) => turns
  | .inl (.steer id' text) => if id' = id ∧ turns = [] ∧ text ≠ [] ∧ text ∉ known then [.sent] else turns
  | .inl (.steerConsumed id') => if id' = id then turns.map (settled .consumed) else turns
  | .inl .exit => turns.map (settled .unconsumed)
  | .inr (.succeeded id' _) => if id' = id ∧ turns = [] then [.sent] else turns
  | .inr (.failed id' _ _) => if id' = id ∧ turns = [] then [.error] else turns

theorem turnsOf_onEvent (hid : id ≠ []) (event : Event) :
    turnsOf id (onEvent segments event) = turnsAfter id (idless segments) (turnsOf id segments) event := by
  cases event with
  | inl frame =>
    cases frame with
    | output stream data =>
      rw [onEvent, onFrame]
      split
      · rw [turnsOf, userTurns_appendModelText]
        rfl
      · rfl
    | steer id' text =>
      rw [onEvent, onFrame, turnsAfter]
      by_cases htext : text = []
      · simp [htext]
      · rw [if_pos (List.length_pos_iff.mpr htext), turnsOf_applySteerFrame hid]
        simp [htext]
    | steerConsumed id' =>
      rw [onEvent, onFrame, turnsAfter]
      by_cases hid' : id' = []
      · simp [hid', hid.symm]
      · rw [if_pos hid', markSteerConsumed, if_neg hid', turnsOf_settleSent (fun id => decide (id = id'))]
        simp only [decide_eq_true_eq, @eq_comm _ id id']
    | exit => exact turnsOf_settleSent (fun _ => true) .unconsumed
  | inr send =>
    cases send with
    | succeeded id' text => exact turnsOf_appendUserTurn hid _
    | failed id' text error => exact turnsOf_appendUserTurn hid _

/-- The texts without an id only become more. -/
theorem idless_subset_onEvent (event : Event) : idless segments ⊆ idless (onEvent segments event) := by
  have happend : ∀ turn, idless segments ⊆ idless (appendUserTurn segments turn) := fun turn => by
    rw [idless_appendUserTurn]
    exact List.subset_append_left _ _
  cases event with
  | inl frame =>
    cases frame with
    | output stream data =>
      rw [onEvent, onFrame]
      split
      · rw [idless, idless, userTurns_appendModelText]
        exact List.Subset.refl _
      · exact List.Subset.refl _
    | steer id' text =>
      rw [onEvent, onFrame]
      split
      · rw [applySteerFrame]
        split
        · exact List.Subset.refl _
        · split
          · exact List.Subset.refl _
          · exact happend _
      · exact List.Subset.refl _
    | steerConsumed id' =>
      rw [onEvent, onFrame]
      split
      · rw [markSteerConsumed]
        split
        · exact List.Subset.refl _
        · rw [idless_settleSent]
          exact List.Subset.refl _
      · exact List.Subset.refl _
    | exit =>
      rw [onEvent, onFrame, markPendingUnconsumed, idless_settleSent]
      exact List.Subset.refl _
  | inr send =>
    cases send with
    | succeeded id' text => exact happend _
    | failed id' text error => exact happend _

def Event.Brings (id : Text) : Event → Prop
  | .inl (.steer id' _) => id' = id
  | .inr (.succeeded id' _) => id' = id
  | .inr (.failed id' _ _) => id' = id
  | _ => False

/-- A new text without an id is that of a failed send without one. -/
theorem mem_idless_onEvent {event : Event} (hnamed : ∀ text, event ≠ .inl (.steer [] text))
    (hsent : ∀ text, event ≠ .inr (.succeeded [] text)) (h : text ∈ idless (onEvent segments event)) :
    text ∈ idless segments ∨ ∃ error, event = .inr (.failed [] text error) := by
  have happend : ∀ turn : UserTurn, text ∈ idless (appendUserTurn segments turn) →
      text ∈ idless segments ∨ (turn.id = [] ∧ turn.text = text) := fun turn h => by
    rw [idless_appendUserTurn, List.mem_append] at h
    refine h.imp_right fun h => ?_
    split at h
    · next hid => exact ⟨hid, (List.mem_singleton.mp h).symm⟩
    · exact absurd h List.not_mem_nil
  cases event with
  | inl frame =>
    left
    cases frame with
    | output stream data =>
      rw [onEvent, onFrame] at h
      split at h
      · rwa [idless, userTurns_appendModelText] at h
      · exact h
    | steer id' text' =>
      rw [onEvent, onFrame] at h
      split at h
      · rw [applySteerFrame] at h
        split at h
        · exact h
        · split at h
          · exact h
          · refine (happend _ h).resolve_right fun hnew => ?_
            have hid : id' = [] := hnew.1
            exact hnamed text' (hid ▸ rfl)
      · exact h
    | steerConsumed id' =>
      rw [onEvent, onFrame] at h
      split at h
      · rw [markSteerConsumed] at h
        split at h
        · exact h
        · rwa [idless_settleSent] at h
      · exact h
    | exit => rwa [onEvent, onFrame, markPendingUnconsumed, idless_settleSent] at h
  | inr send =>
    cases send with
    | succeeded id' text' =>
      refine .inl ((happend _ h).resolve_right fun hnew => ?_)
      have hid : id' = [] := hnew.1
      exact hsent text' (hid ▸ rfl)
    | failed id' text' error =>
      refine (happend _ h).imp_right fun hnew => ⟨error, ?_⟩
      have hid : id' = [] := hnew.1
      have htext : text' = text := hnew.2
      rw [hid, htext]

/-! ## Runs of events -/

theorem turnsOf_none (hid : id ≠ []) (h : turnsOf id segments = []) (hquiet : ∀ event ∈ events, ¬ event.Brings id) :
    turnsOf id (events.foldl onEvent segments) = [] := by
  induction events generalizing segments with
  | nil => exact h
  | cons event events ih =>
    refine ih ?_ fun event' hmem => hquiet event' (List.mem_cons_of_mem _ hmem)
    have hevent := hquiet event List.mem_cons_self
    rw [turnsOf_onEvent hid, h]
    match event, hevent with
    | .inl (.output _ _), _ => rfl
    | .inl .exit, _ => rfl
    | .inl (.steerConsumed id'), _ => exact ite_self []
    | .inl (.steer id' text), hne => exact if_neg fun hnew => hne hnew.1
    | .inr (.succeeded id' text), hne => exact if_neg fun hnew => hne hnew.1
    | .inr (.failed id' text error), hne => exact if_neg fun hnew => hne hnew.1

/-- A frame with the text of a turn without an id brings nothing, however often it comes. -/
theorem turnsOf_blocked (hid : id ≠ []) (h : turnsOf id segments = []) (hblocked : text = [] ∨ text ∈ idless segments)
    (hquiet : ∀ event ∈ events, event.Brings id → event = .inl (.steer id text)) :
    turnsOf id (events.foldl onEvent segments) = [] := by
  induction events generalizing segments with
  | nil => exact h
  | cons event events ih =>
    refine ih ?_ (hblocked.imp_right fun hmem => idless_subset_onEvent event hmem)
      fun event' hmem => hquiet event' (List.mem_cons_of_mem _ hmem)
    by_cases hevent : event.Brings id
    · rw [hquiet event List.mem_cons_self hevent, turnsOf_onEvent hid, turnsAfter]
      refine (if_neg fun hnew => ?_).trans h
      exact hblocked.elim hnew.2.2.1 hnew.2.2.2
    · have hone : ∀ event' ∈ [event], ¬ event'.Brings id := by simpa using hevent
      exact turnsOf_none hid h hone

/-- How a turn that is `sent` ends, by the first frame that settles it. -/
def outcome (id : Text) : List Event → SteerStatus
  | [] => .sent
  | .inl (.steerConsumed id') :: rest => if id' = id then .consumed else outcome id rest
  | .inl .exit :: _ => .unconsumed
  | _ :: rest => outcome id rest

theorem turnsAfter_settled {known : List Text} {now : SteerStatus} (hnow : now ≠ .sent) (event : Event) :
    turnsAfter id known [now] event = [now] := by
  have hkeep : ∀ status, [now].map (settled status) = [now] := fun status => by
    rw [List.map_singleton, settled, if_neg hnow]
  match event with
  | .inl (.output _ _) => rfl
  | .inl .exit => exact hkeep _
  | .inl (.steerConsumed id') =>
    rw [turnsAfter, hkeep, ite_self]
  | .inl (.steer id' text) => exact if_neg fun hnew => absurd hnew.2.1 (List.cons_ne_nil _ _)
  | .inr (.succeeded id' text) => exact if_neg fun hnew => absurd hnew.2 (List.cons_ne_nil _ _)
  | .inr (.failed id' text error) => exact if_neg fun hnew => absurd hnew.2 (List.cons_ne_nil _ _)

theorem turnsOf_settled (hid : id ≠ []) {now : SteerStatus} (hnow : now ≠ .sent) (h : turnsOf id segments = [now])
    (events : List Event) : turnsOf id (events.foldl onEvent segments) = [now] := by
  induction events generalizing segments with
  | nil => exact h
  | cons event events ih =>
    refine ih ?_
    rw [turnsOf_onEvent hid, h]
    exact turnsAfter_settled hnow event

theorem turnsOf_sent (hid : id ≠ []) (h : turnsOf id segments = [.sent]) (events : List Event) :
    turnsOf id (events.foldl onEvent segments) = [outcome id events] := by
  induction events generalizing segments with
  | nil => exact h
  | cons event events ih =>
    have hafter : turnsOf id (onEvent segments event) = turnsAfter id (idless segments) [.sent] event := by
      rw [turnsOf_onEvent hid, h]
    rw [List.foldl_cons]
    match event with
    | .inl (.output _ _) => exact ih hafter
    | .inl .exit => exact turnsOf_settled hid (by decide) hafter events
    | .inl (.steerConsumed id') =>
      rw [turnsAfter] at hafter
      rw [outcome]
      split
      · next heq =>
        rw [if_pos heq] at hafter
        exact turnsOf_settled hid (by decide) hafter events
      · next hne =>
        rw [if_neg hne] at hafter
        exact ih hafter
    | .inl (.steer id' text) =>
      exact ih (hafter.trans (if_neg fun hnew => absurd hnew.2.1 (List.cons_ne_nil _ _)))
    | .inr (.succeeded id' text) =>
      exact ih (hafter.trans (if_neg fun hnew => absurd hnew.2 (List.cons_ne_nil _ _)))
    | .inr (.failed id' text error) =>
      exact ih (hafter.trans (if_neg fun hnew => absurd hnew.2 (List.cons_ne_nil _ _)))

/-- Which frame settles a turn: the first of its own and of `exit`. -/
def SettledBy (id : Text) (events : List Event) : SteerStatus → Prop
  | .consumed => ∃ mid rest, events = mid ++ .inl (.steerConsumed id) :: rest ∧ .inl .exit ∉ mid
  | .unconsumed => ∃ mid rest, events = mid ++ .inl .exit :: rest ∧ .inl (.steerConsumed id) ∉ mid
  | .sent => .inl .exit ∉ events ∧ .inl (.steerConsumed id) ∉ events
  | _ => False

theorem SettledBy.cons {event : Event} {status : SteerStatus} (h : SettledBy id events status)
    (hexit : .inl .exit ≠ event) (hconsumed : .inl (.steerConsumed id) ≠ event) :
    SettledBy id (event :: events) status := by
  cases status with
  | consumed =>
    obtain ⟨mid, rest, hsplit, hno⟩ := h
    exact ⟨event :: mid, rest, congrArg (event :: ·) hsplit, List.not_mem_cons_of_ne_of_not_mem hexit hno⟩
  | unconsumed =>
    obtain ⟨mid, rest, hsplit, hno⟩ := h
    exact ⟨event :: mid, rest, congrArg (event :: ·) hsplit, List.not_mem_cons_of_ne_of_not_mem hconsumed hno⟩
  | sent =>
    exact ⟨List.not_mem_cons_of_ne_of_not_mem hexit h.1, List.not_mem_cons_of_ne_of_not_mem hconsumed h.2⟩
  | error => exact h
  | historical => exact h

theorem settledBy_outcome (id : Text) (events : List Event) : SettledBy id events (outcome id events) := by
  induction events with
  | nil => exact ⟨List.not_mem_nil, List.not_mem_nil⟩
  | cons event events ih =>
    match event with
    | .inl .exit => exact ⟨[], events, rfl, List.not_mem_nil⟩
    | .inl (.steerConsumed id') =>
      rw [outcome]
      split
      · next heq => exact ⟨[], events, heq ▸ rfl, List.not_mem_nil⟩
      · next hne => exact ih.cons (by simp) (by simpa using fun heq => hne heq.symm)
    | .inl (.output _ _) => exact ih.cons (by simp) (by simp)
    | .inl (.steer _ _) => exact ih.cons (by simp) (by simp)
    | .inr (.succeeded _ _) => exact ih.cons (by simp) (by simp)
    | .inr (.failed _ _ _) => exact ih.cons (by simp) (by simp)

theorem outcome_consumed_iff : outcome id events = .consumed ↔
    ∃ mid rest, events = mid ++ .inl (.steerConsumed id) :: rest ∧ .inl .exit ∉ mid := by
  constructor
  · intro h
    have hby := settledBy_outcome id events
    rwa [h] at hby
  · rintro ⟨mid, rest, rfl, hno⟩
    induction mid with
    | nil => exact if_pos rfl
    | cons event mid ih =>
      have hrest := ih fun hmem => hno (List.mem_cons_of_mem _ hmem)
      match event with
      | .inl .exit => exact absurd List.mem_cons_self hno
      | .inl (.steerConsumed id') =>
        rw [List.cons_append, outcome]
        split
        · rfl
        · exact hrest
      | .inl (.output _ _) => exact hrest
      | .inl (.steer _ _) => exact hrest
      | .inr (.succeeded _ _) => exact hrest
      | .inr (.failed _ _ _) => exact hrest

/-- Without a frame of its own, a turn is settled by `exit` alone. -/
theorem outcome_unconsumed_iff (hnone : .inl (.steerConsumed id) ∉ events) :
    outcome id events = .unconsumed ↔ .inl .exit ∈ events := by
  have hby := settledBy_outcome id events
  constructor
  · intro h
    rw [h] at hby
    obtain ⟨mid, rest, rfl, -⟩ := hby
    exact List.mem_append_right _ List.mem_cons_self
  · intro hexit
    cases hout : outcome id events with
    | unconsumed => rfl
    | consumed =>
      rw [hout] at hby
      obtain ⟨mid, rest, rfl, -⟩ := hby
      exact absurd (List.mem_append_right _ List.mem_cons_self) hnone
    | sent =>
      rw [hout] at hby
      exact absurd hexit hby.1
    | error =>
      rw [hout] at hby
      exact hby.elim
    | historical =>
      rw [hout] at hby
      exact hby.elim

/-! ## The order of the server -/

def Frame.steerId? : Frame → Option Text
  | .steer id _ => some id
  | _ => none

structure ServerOrder (frames : List Frame) : Prop where
  exit_last : ∃ body, frames = body ++ [.exit] ∧ .exit ∉ body
  id_ne_nil : ∀ id text, .steer id text ∈ frames → id ≠ []
  own_ids : (frames.filterMap Frame.steerId?).Nodup
  consumed_after : ∀ before id after, frames = before ++ .steerConsumed id :: after → ∃ text, .steer id text ∈ before

theorem ServerOrder.text_eq (h : ServerOrder frames) {text' : Text} (hsteer : .steer id text ∈ frames)
    (hsteer' : .steer id text' ∈ frames) : text' = text := by
  by_contra hne
  have hsymm : Std.Symm fun a a' : Frame => ∀ b, a.steerId? = some b → ∀ b', a'.steerId? = some b' → b ≠ b' :=
    ⟨fun a a' hdiff b hb b' hb' => (hdiff b' hb' b hb).symm⟩
  have hpair := List.pairwise_filterMap.mp h.own_ids
  exact hpair.forall hsteer hsteer' (by simpa using Ne.symm hne) id rfl id rfl rfl

def Event.sentId? : Event → Option Text
  | .inr (.succeeded id _) => some id
  | _ => none

/-- What reaches the viewer in a run: every frame in the server's order, some of them again, and how
each send of the viewer came back, at any time. -/
structure Arrives (frames : List Frame) (events : List Event) : Prop where
  delivered : Lib.Redelivery frames frames.length events
  sent_steer : ∀ id text, .inr (.succeeded id text) ∈ events → ∃ text', .steer id text' ∈ frames
  sent_once : (events.filterMap Event.sentId?).Nodup
  /-- A send that failed has no id, or one that no steer has. -/
  failed_id : ∀ id text error, .inr (.failed id text error) ∈ events → ∀ text', .steer id text' ∉ frames

theorem Arrives.not_sent_before (h : Arrives frames events) {before after : List Event} {text' : Text}
    (hsplit : events = before ++ .inr (.succeeded id text) :: after) : .inr (.succeeded id text') ∉ before := by
  intro hmem
  have honce := h.sent_once
  have hcons : (.inr (.succeeded id text) :: after : List Event).filterMap Event.sentId? =
      id :: after.filterMap Event.sentId? := rfl
  rw [hsplit, List.filterMap_append, hcons] at honce
  exact (List.nodup_append.mp honce).2.2 id (List.mem_filterMap.mpr ⟨_, hmem, rfl⟩) id List.mem_cons_self rfl

theorem steer_before_consumed (horder : ServerOrder frames) (harrives : Arrives frames events)
    (hsteer : .steer id text ∈ frames) {before after : List Event}
    (hsplit : events = before ++ .inl (.steerConsumed id) :: after) : .inl (.steer id text) ∈ before := by
  refine (hsplit ▸ harrives.delivered).precedes fun left right hframes => ?_
  obtain ⟨text', htext'⟩ := horder.consumed_after left id right hframes
  have hmem : .steer id text' ∈ frames := by
    rw [hframes]
    exact List.mem_append_left _ htext'
  rwa [horder.text_eq hsteer hmem] at htext'

/-- Everything is there before `exit`. -/
theorem before_exit (horder : ServerOrder frames) (harrives : Arrives frames events) {frame : Frame}
    (hframe : frame ∈ frames) (hne : frame ≠ .exit) {before after : List Event}
    (hsplit : events = before ++ .inl .exit :: after) : .inl frame ∈ before := by
  refine (hsplit ▸ harrives.delivered).precedes fun left right hframes => ?_
  obtain ⟨body, hbody, hno⟩ := horder.exit_last
  have hleft : left = body := by
    rw [hbody] at hframes
    rcases Lib.two_cuts hframes with ⟨hleft, -, -⟩ | ⟨mid, -, hrest⟩ | ⟨mid, hleft, -⟩
    · exact hleft
    · exact absurd hrest (by simp)
    · exact absurd (hleft ▸ List.mem_append_right _ List.mem_cons_self) hno
  rw [hbody] at hframe
  rw [hleft]
  exact (List.mem_append.mp hframe).resolve_right fun hlast => hne (List.mem_singleton.mp hlast)

/-! ## The turn of a steer -/

def ConsumedBeforeExit (events : List Event) (id : Text) : Prop :=
  ∃ before after, events = before ++ .inl .exit :: after ∧ .inl .exit ∉ before ∧ .inl (.steerConsumed id) ∈ before

/-- One turn for the steer, with the status that the frames call for. -/
def Settles (events : List Event) (id : Text) : Prop :=
  ∃ status, turnsOf id (shown events) = [status] ∧
    ((status = .consumed ∧ ConsumedBeforeExit events id) ∨ (status = .unconsumed ∧ ¬ ConsumedBeforeExit events id))

/-- The first `steer` frame finds the sender's own turn, or no failed send without an id whose text is
its own. -/
def FrameShows (events : List Event) (id text : Text) : Prop :=
  ∀ before after, events = before ++ .inl (.steer id text) :: after → .inl (.steer id text) ∉ before →
    (∃ text', .inr (.succeeded id text') ∈ before) ∨ (text ≠ [] ∧ ∀ error, .inr (.failed [] text error) ∉ before)

/-- The sender's own append is followed by the frame that settles the turn. -/
def AppendInTime (frames : List Frame) (events : List Event) (id : Text) : Prop :=
  ∃ before text after, events = before ++ .inr (.succeeded id text) :: after ∧
    if .steerConsumed id ∈ frames then ∃ mid rest, after = mid ++ .inl (.steerConsumed id) :: rest ∧ .inl .exit ∉ mid
    else .inl .exit ∈ after

theorem consumedBeforeExit_iff (horder : ServerOrder frames) (harrives : Arrives frames events) :
    ConsumedBeforeExit events id ↔ .steerConsumed id ∈ frames := by
  constructor
  · rintro ⟨before, after, rfl, -, hmem⟩
    exact harrives.delivered.mem_iff_of_all.mp (List.mem_append_left _ hmem)
  · intro hconsumed
    obtain ⟨body, hbody, -⟩ := horder.exit_last
    have hexit : .inl .exit ∈ events := by
      rw [harrives.delivered.mem_iff_of_all, hbody]
      exact List.mem_append_right _ List.mem_cons_self
    obtain ⟨before, after, hsplit, hno⟩ := List.eq_append_cons_of_mem hexit
    exact ⟨before, after, hsplit, hno, before_exit horder harrives hconsumed (by simp) hsplit⟩

def calledFor (frames : List Frame) (id : Text) : SteerStatus :=
  if .steerConsumed id ∈ frames then .consumed else .unconsumed

theorem settles_iff_turnsOf (horder : ServerOrder frames) (harrives : Arrives frames events) :
    Settles events id ↔ turnsOf id (shown events) = [calledFor frames id] := by
  rw [Settles, consumedBeforeExit_iff horder harrives, calledFor]
  by_cases hconsumed : .steerConsumed id ∈ frames
  · simp [hconsumed]
  · simp [hconsumed]

variable {before after : List Event}

theorem outcome_of_first (horder : ServerOrder frames) (harrives : Arrives frames events)
    (hsteer : .steer id text ∈ frames) {event : Event} (hsplit : events = before ++ event :: after)
    (hbrings : event.Brings id) (hquiet : .inl (.steer id text) ∉ before) :
    outcome id after = calledFor frames id := by
  have hexit_before : .inl .exit ∉ before := fun hmem => by
    obtain ⟨l, r, rfl⟩ := List.append_of_mem hmem
    have hearly : events = l ++ .inl .exit :: (r ++ event :: after) := by rw [hsplit, List.append_assoc, List.cons_append]
    exact hquiet (List.mem_append_left _ (before_exit horder harrives hsteer (by simp) hearly))
  have hconsumed_before : .inl (.steerConsumed id) ∉ before := fun hmem => by
    obtain ⟨l, r, rfl⟩ := List.append_of_mem hmem
    have hearly : events = l ++ .inl (.steerConsumed id) :: (r ++ event :: after) := by
      rw [hsplit, List.append_assoc, List.cons_append]
    exact hquiet (List.mem_append_left _ (steer_before_consumed horder harrives hsteer hearly))
  have hafter : ∀ frame : Frame, frame ∈ frames → ¬ Event.Brings id (.inl frame) → .inl frame ∉ before →
      .inl frame ∈ after := fun frame hframe hother hno => by
    have hmem : (.inl frame : Event) ∈ events := harrives.delivered.mem_iff_of_all.mpr hframe
    rw [hsplit] at hmem
    refine (List.mem_cons.mp ((List.mem_append.mp hmem).resolve_left hno)).resolve_left fun heq => ?_
    exact hother (heq ▸ hbrings)
  obtain ⟨body, hbody, -⟩ := horder.exit_last
  have hexit : .inl .exit ∈ after := hafter .exit (by simp [hbody]) (fun h => h) hexit_before
  rw [calledFor]
  split
  · next hconsumed =>
    rw [outcome_consumed_iff]
    have hmem : .inl (.steerConsumed id) ∈ after := hafter (.steerConsumed id) hconsumed (fun h => h) hconsumed_before
    obtain ⟨mid, rest, hafter_eq, hno⟩ := List.eq_append_cons_of_mem hmem
    refine ⟨mid, rest, hafter_eq, fun hexit_mid => ?_⟩
    obtain ⟨l, r, rfl⟩ := List.append_of_mem hexit_mid
    have hexit_split : events = (before ++ event :: l) ++ .inl .exit :: (r ++ .inl (.steerConsumed id) :: rest) := by
      rw [hsplit, hafter_eq]
      simp
    have hearly := before_exit horder harrives hconsumed (by simp) hexit_split
    rcases List.mem_append.mp hearly with hbefore | hrest
    · exact hconsumed_before hbefore
    · rcases List.mem_cons.mp hrest with heq | hl
      · rw [← heq] at hbrings
        exact hbrings
      · exact hno (List.mem_append_left _ hl)
  · next hnone =>
    refine (outcome_unconsumed_iff fun hmem => hnone ?_).mpr hexit
    rw [← harrives.delivered.mem_iff_of_all, hsplit]
    exact List.mem_append_right _ (List.mem_cons_of_mem _ hmem)

theorem brings_cases (horder : ServerOrder frames) (harrives : Arrives frames events)
    (hsteer : .steer id text ∈ frames) {event : Event} (hmem : event ∈ events) (hbrings : event.Brings id) :
    event = .inl (.steer id text) ∨ ∃ text', event = .inr (.succeeded id text') := by
  match event, hbrings, hmem with
  | .inl (.steer id' text'), heq, hmem =>
    have hid : id' = id := heq
    subst hid
    exact .inl (by rw [horder.text_eq hsteer (harrives.delivered.mem_iff_of_all.mp hmem)])
  | .inr (.succeeded id' text'), heq, _ =>
    have hid : id' = id := heq
    exact .inr ⟨text', by rw [hid]⟩
  | .inr (.failed id' text' error), heq, hmem =>
    have hid : id' = id := heq
    exact absurd hsteer (hid ▸ harrives.failed_id id' text' error hmem text)

theorem first_brings (horder : ServerOrder frames) (harrives : Arrives frames events)
    (hsteer : .steer id text ∈ frames) :
    ∃ before event after, events = before ++ event :: after ∧ (∀ e ∈ before, ¬ e.Brings id) ∧
      (event = .inl (.steer id text) ∨ ∃ text', event = .inr (.succeeded id text')) := by
  classical
  have hmem : (.inl (.steer id text) : Event) ∈ events := harrives.delivered.mem_iff_of_all.mpr hsteer
  cases hfind : events.find? fun e => decide (e.Brings id) with
  | none => exact absurd (List.find?_eq_none.mp hfind _ hmem) (by simp [Event.Brings])
  | some event =>
    obtain ⟨hbrings, before, after, hsplit, hquiet⟩ := List.find?_eq_some_iff_append.mp hfind
    have hevent : event ∈ events := hsplit ▸ List.mem_append_right _ List.mem_cons_self
    exact ⟨before, event, after, hsplit, fun e he => by simpa using hquiet e he,
      brings_cases horder harrives hsteer hevent (of_decide_eq_true hbrings)⟩

theorem append_split_unique (harrives : Arrives frames events) {before' after' : List Event} {text text' : Text}
    (h : events = before ++ .inr (.succeeded id text) :: after)
    (h' : events = before' ++ .inr (.succeeded id text') :: after') : before' = before ∧ after' = after := by
  rcases Lib.two_cuts (h.symm.trans h') with ⟨hbefore, -, hafter⟩ | ⟨mid, hmid, -⟩ | ⟨mid, hmid, -⟩
  · exact ⟨hbefore, hafter⟩
  · refine absurd ?_ (@Arrives.not_sent_before _ _ _ _ harrives _ _ text h')
    rw [hmid]
    exact List.mem_append_right _ List.mem_cons_self
  · refine absurd ?_ (@Arrives.not_sent_before _ _ _ _ harrives _ _ text' h)
    rw [hmid]
    exact List.mem_append_right _ List.mem_cons_self

theorem mem_idless_shown (hframe : ∀ text, .inl (.steer [] text) ∉ events)
    (hsent : ∀ text, .inr (.succeeded [] text) ∉ events) :
    text ∈ idless (shown events) ↔ ∃ error, .inr (.failed [] text error) ∈ events := by
  induction events using List.reverseRecOn with
  | nil => exact ⟨fun h => absurd h List.not_mem_nil, fun ⟨_, h⟩ => absurd h List.not_mem_nil⟩
  | append_singleton events event ih =>
    have ih := ih (fun text h => hframe text (List.mem_append_left _ h)) fun text h => hsent text (List.mem_append_left _ h)
    rw [shown, List.foldl_append]
    constructor
    · intro h
      have hlast := mem_idless_onEvent (fun text heq => hframe text (heq ▸ List.mem_append_right _ List.mem_cons_self))
        (fun text heq => hsent text (heq ▸ List.mem_append_right _ List.mem_cons_self)) h
      rcases hlast with hold | ⟨error, rfl⟩
      · exact (ih.mp hold).imp fun error hmem => List.mem_append_left _ hmem
      · exact ⟨error, List.mem_append_right _ List.mem_cons_self⟩
    · rintro ⟨error, hmem⟩
      rcases List.mem_append.mp hmem with hold | hnew
      · exact idless_subset_onEvent event (ih.mpr ⟨error, hold⟩)
      · rw [← List.mem_singleton.mp hnew]
        show text ∈ idless (appendUserTurn (shown events) { id := [], text := text, status := .error, error := some error })
        rw [idless_appendUserTurn]
        exact List.mem_append_right _ List.mem_cons_self

theorem mem_idless_shown_before (horder : ServerOrder frames) (harrives : Arrives frames events) {event : Event}
    (hsplit : events = before ++ event :: after) :
    text ∈ idless (shown before) ↔ ∃ error, .inr (.failed [] text error) ∈ before := by
  have hsub : ∀ e ∈ before, e ∈ events := fun e he => hsplit ▸ List.mem_append_left _ he
  refine mem_idless_shown (fun text hmem => ?_) fun text hmem => ?_
  · exact horder.id_ne_nil [] text (harrives.delivered.mem_iff_of_all.mp (hsub _ hmem)) rfl
  · obtain ⟨text', hsteer⟩ := harrives.sent_steer [] text (hsub _ hmem)
    exact horder.id_ne_nil [] text' hsteer rfl

/-- A late append is right if and only if the frame that settles it is yet to come. -/
theorem outcome_of_append (harrives : Arrives frames events) {text : Text}
    (hsplit : events = before ++ .inr (.succeeded id text) :: after) :
    outcome id after = calledFor frames id ↔ AppendInTime frames events id := by
  have hcond : outcome id after = calledFor frames id ↔
      if .steerConsumed id ∈ frames then ∃ mid rest, after = mid ++ .inl (.steerConsumed id) :: rest ∧ .inl .exit ∉ mid
      else .inl .exit ∈ after := by
    rw [calledFor]
    split
    · exact outcome_consumed_iff
    · next hnone =>
      refine outcome_unconsumed_iff fun hmem => hnone ?_
      rw [← harrives.delivered.mem_iff_of_all, hsplit]
      exact List.mem_append_right _ (List.mem_cons_of_mem _ hmem)
  rw [hcond]
  constructor
  · exact fun h => ⟨before, text, after, hsplit, h⟩
  · rintro ⟨before', text', after', hsplit', h⟩
    obtain ⟨-, rfl⟩ := append_split_unique harrives hsplit hsplit'
    exact h

/-- Where no frame brings the turn, what is left is the sender's own append. -/
theorem settles_iff_of_blocked (horder : ServerOrder frames) (harrives : Arrives frames events)
    (hsteer : .steer id text ∈ frames) (hsplit : events = before ++ .inl (.steer id text) :: after)
    (hnone : turnsOf id (shown before) = []) (hblocked : text = [] ∨ text ∈ idless (shown before))
    (hquiet : ∀ text', .inr (.succeeded id text') ∉ before) :
    Settles events id ↔ AppendInTime frames events id := by
  have hid := horder.id_ne_nil id text hsteer
  have hframes : ∀ tail, (∀ e ∈ tail, e ∈ after) → (∀ text', .inr (.succeeded id text') ∉ tail) →
      turnsOf id (shown (before ++ .inl (.steer id text) :: tail)) = [] := fun tail hsub hno => by
    rw [shown, List.foldl_append]
    refine turnsOf_blocked hid hnone hblocked fun e he hbrings => ?_
    rcases List.mem_cons.mp he with rfl | he
    · rfl
    · have hmem : e ∈ events := hsplit ▸ List.mem_append_right _ (List.mem_cons_of_mem _ (hsub e he))
      refine (brings_cases horder harrives hsteer hmem hbrings).resolve_right ?_
      rintro ⟨text', rfl⟩
      exact hno text' he
  rw [settles_iff_turnsOf horder harrives]
  by_cases hsent : ∃ text', .inr (.succeeded id text') ∈ after
  · obtain ⟨text', hmem⟩ := hsent
    obtain ⟨gap, rest, rfl⟩ := List.append_of_mem hmem
    have hsplit' : events = (before ++ .inl (.steer id text) :: gap) ++ .inr (.succeeded id text') :: rest := by
      rw [hsplit, List.append_assoc, List.cons_append]
    have hgap := hframes gap (fun e he => List.mem_append_left _ he) fun text' hmem =>
      harrives.not_sent_before hsplit' (List.mem_append_right _ (List.mem_cons_of_mem _ hmem))
    have happended : turnsOf id (onEvent (shown (before ++ .inl (.steer id text) :: gap))
        (.inr (.succeeded id text'))) = [.sent] := by
      rw [turnsOf_onEvent hid]
      exact if_pos ⟨rfl, hgap⟩
    have hshown : turnsOf id (shown events) = [outcome id rest] := by
      rw [hsplit', shown, List.foldl_append]
      exact turnsOf_sent hid happended rest
    rw [hshown, List.cons.injEq, and_iff_left rfl]
    exact outcome_of_append harrives hsplit'
  · have hshown : turnsOf id (shown events) = [] := by
      rw [hsplit]
      exact hframes after (fun e he => he) fun text' hmem => hsent ⟨text', hmem⟩
    rw [hshown]
    refine iff_of_false (by simp) ?_
    rintro ⟨before', text', after', hsplit', -⟩
    have hmem : .inr (.succeeded id text') ∈ events := hsplit' ▸ List.mem_append_right _ List.mem_cons_self
    rw [hsplit] at hmem
    rcases List.mem_append.mp hmem with hbefore | htail
    · exact hquiet text' hbefore
    · exact hsent ⟨text', (List.mem_cons.mp htail).resolve_left (by simp)⟩

/-- The turn of one steer at the end of a run. -/
theorem settles_iff (horder : ServerOrder frames) (harrives : Arrives frames events)
    (hsteer : .steer id text ∈ frames) :
    Settles events id ↔ FrameShows events id text ∨ AppendInTime frames events id := by
  have hid := horder.id_ne_nil id text hsteer
  obtain ⟨before, event, after, hsplit, hquiet, hevent⟩ := first_brings horder harrives hsteer
  have hnone : turnsOf id (shown before) = [] := turnsOf_none hid rfl hquiet
  have hshown : shown events = (event :: after).foldl onEvent (shown before) := by
    rw [hsplit, shown, List.foldl_append]
    rfl
  have hfirst : .inl (.steer id text) ∉ before := fun hmem => hquiet _ hmem rfl
  have hright : event.Brings id → turnsOf id (onEvent (shown before) event) = [.sent] → Settles events id :=
    fun hbrings hsent => by
      rw [settles_iff_turnsOf horder harrives, hshown, List.foldl_cons, turnsOf_sent hid hsent,
        outcome_of_first horder harrives hsteer hsplit hbrings hfirst]
  rcases hevent with rfl | ⟨text', rfl⟩
  · by_cases hshows : text ≠ [] ∧ ∀ error, .inr (.failed [] text error) ∉ before
    · -- the first frame brings the turn
      have hknown : text ∉ idless (shown before) := fun hmem => by
        obtain ⟨error, herror⟩ := (mem_idless_shown_before horder harrives hsplit).mp hmem
        exact hshows.2 error herror
      refine iff_of_true (hright rfl ?_) (.inl ?_)
      · rw [turnsOf_onEvent hid]
        exact if_pos ⟨rfl, hnone, hshows.1, hknown⟩
      · intro before' after' hsplit' hno
        rcases Lib.two_cuts (hsplit.symm.trans hsplit') with ⟨rfl, -, -⟩ | ⟨mid, rfl, -⟩ | ⟨mid, rfl, -⟩
        · exact .inr hshows
        · exact absurd (List.mem_append_right _ List.mem_cons_self) hno
        · exact absurd (List.mem_append_right _ List.mem_cons_self) hfirst
    · -- no frame does
      have hnotShows : ¬ FrameShows events id text := fun h =>
        (h before after hsplit hfirst).elim (fun ⟨_, hsent⟩ => hquiet _ hsent rfl) hshows
      have hblocked : text = [] ∨ text ∈ idless (shown before) := by
        rw [mem_idless_shown_before horder harrives hsplit]
        by_contra hno
        rw [not_or, not_exists] at hno
        exact hshows hno
      rw [or_iff_right hnotShows]
      exact settles_iff_of_blocked horder harrives hsteer hsplit hnone hblocked fun text' hmem => hquiet _ hmem rfl
  · -- the sender's own append brings the turn
    refine iff_of_true (hright rfl ?_) (.inl ?_)
    · rw [turnsOf_onEvent hid]
      exact if_pos ⟨rfl, hnone⟩
    · intro before' after' hsplit' hno
      rcases Lib.two_cuts (hsplit.symm.trans hsplit') with ⟨-, heq, -⟩ | ⟨mid, rfl, -⟩ | ⟨mid, rfl, -⟩
      · exact absurd heq (by simp)
      · exact .inl ⟨text', List.mem_append_right _ List.mem_cons_self⟩
      · exact absurd (List.mem_append_right _ List.mem_cons_self) hfirst

/-- Every steer has its one turn at the end of a run if and only if each of them is shown by its first
frame or by an append that is in time. -/
theorem steers_settle_iff (horder : ServerOrder frames) (harrives : Arrives frames events) :
    (∀ id text, .steer id text ∈ frames → Settles events id) ↔
      ∀ id text, .steer id text ∈ frames → FrameShows events id text ∨ AppendInTime frames events id :=
  forall_congr' fun _ => forall_congr' fun _ => imp_congr_right fun hsteer => settles_iff horder harrives hsteer

/-! ## Two runs -/

open Lib.Units

def tickedRun : List Frame := [.steer (units "a") (units "go"), .steerConsumed (units "a"), .exit]

/-- A send with another text failed before, and the steer's frame comes twice. -/
def otherFailed : List Event :=
  [.inr (.failed [] (units "stop") (units "too late")), .inl (.steer (units "a") (units "go")),
    .inr (.succeeded (units "a") (units "go")), .inl (.steerConsumed (units "a")),
    .inl (.steer (units "a") (units "go")), .inl .exit]

/-- The send failed once before it went through, and its frames are faster than the answer to it. -/
def sameFailed : List Event :=
  [.inr (.failed [] (units "go") (units "too late")), .inl (.steer (units "a") (units "go")),
    .inl (.steerConsumed (units "a")), .inr (.succeeded (units "a") (units "go")), .inl .exit]

theorem serverOrder_tickedRun : ServerOrder tickedRun where
  exit_last := ⟨[.steer (units "a") (units "go"), .steerConsumed (units "a")], rfl, by decide⟩
  id_ne_nil id text h := by
    have hid : id = units "a" := by
      simp [tickedRun] at h
      exact h.1
    rw [hid]
    decide
  own_ids := by decide
  consumed_after before id after h := by
    rcases Lib.two_cuts (show [.steer (units "a") (units "go")] ++ .steerConsumed (units "a") :: [.exit] =
      before ++ .steerConsumed id :: after from h) with ⟨rfl, heq, -⟩ | ⟨mid, -, hrest⟩ | ⟨mid, hrest, -⟩
    · exact ⟨units "go", by simp_all⟩
    · exact absurd (hrest ▸ List.mem_append_right mid List.mem_cons_self : Frame.steerConsumed id ∈ [.exit]) (by simp)
    · exact absurd (hrest ▸ List.mem_append_right before List.mem_cons_self :
        Frame.steerConsumed id ∈ [.steer (units "a") (units "go")]) (by simp)

theorem arrives_otherFailed : Arrives tickedRun otherFailed where
  delivered := by
    have hsteer : Lib.Redelivery tickedRun 1 _ :=
      .next (.own (Send.failed [] (units "stop") (units "too late")) .start) rfl
    have hticked : Lib.Redelivery tickedRun 2 _ := .next (.own (.succeeded (units "a") (units "go")) hsteer) rfl
    have hagain : Lib.Redelivery tickedRun 2 _ := .again hticked List.mem_cons_self
    exact .next hagain rfl
  sent_steer id text h := by
    have hid : id = units "a" := by
      simp [otherFailed] at h
      exact h.1
    exact ⟨units "go", hid ▸ List.mem_cons_self⟩
  sent_once := by decide
  failed_id id text error h text' := by
    have hid : id = [] := by
      simp [otherFailed] at h
      exact h.1
    exact fun hsteer => serverOrder_tickedRun.id_ne_nil id text' hsteer hid

theorem arrives_sameFailed : Arrives tickedRun sameFailed where
  delivered := by
    have hsteer : Lib.Redelivery tickedRun 1 _ :=
      .next (.own (Send.failed [] (units "go") (units "too late")) .start) rfl
    have hticked : Lib.Redelivery tickedRun 2 _ := .next hsteer rfl
    exact .next (.own (.succeeded (units "a") (units "go")) hticked) rfl
  sent_steer id text h := by
    have hid : id = units "a" := by
      simp [sameFailed] at h
      exact h.1
    exact ⟨units "go", hid ▸ List.mem_cons_self⟩
  sent_once := by decide
  failed_id id text error h text' := by
    have hid : id = [] := by
      simp [sameFailed] at h
      exact h.1
    exact fun hsteer => serverOrder_tickedRun.id_ne_nil id text' hsteer hid

theorem steers_settle_otherFailed : Settles otherFailed (units "a") := by
  refine (steers_settle_iff serverOrder_tickedRun arrives_otherFailed).mpr (fun id text hsteer => .inl ?_)
    (units "a") (units "go") List.mem_cons_self
  obtain ⟨rfl, rfl⟩ : id = units "a" ∧ text = units "go" := by
    simpa [tickedRun] using hsteer
  intro before after hsplit hno
  have hfirst : [Sum.inr (Send.failed [] (units "stop") (units "too late"))] ++ .inl (.steer (units "a") (units "go")) ::
      otherFailed.drop 2 = before ++ .inl (.steer (units "a") (units "go")) :: after := hsplit
  rcases Lib.two_cuts hfirst with ⟨rfl, -, -⟩ | ⟨mid, rfl, -⟩ | ⟨mid, hmid, -⟩
  · exact .inr ⟨by decide, fun error => by simp [units]⟩
  · exact absurd (List.mem_append_right _ List.mem_cons_self) hno
  · have hmem : Sum.inl (Frame.steer (units "a") (units "go")) ∈
        [Sum.inr (Send.failed [] (units "stop") (units "too late"))] :=
      hmid ▸ List.mem_append_right before List.mem_cons_self
    exact absurd hmem (by simp)

theorem steers_settle_fails_sameFailed :
    ServerOrder tickedRun ∧ Arrives tickedRun sameFailed ∧
      ¬ ∀ id text, .steer id text ∈ tickedRun → Settles sameFailed id := by
  refine ⟨serverOrder_tickedRun, arrives_sameFailed, fun h => ?_⟩
  have hsettles := h (units "a") (units "go") List.mem_cons_self
  rw [settles_iff_turnsOf serverOrder_tickedRun arrives_sameFailed] at hsettles
  exact absurd hsettles (by decide)

end Haive.Terminal

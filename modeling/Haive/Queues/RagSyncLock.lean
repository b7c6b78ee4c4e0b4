import Haive.Lib.Runs
import Mathlib

/-!
# The RAG sync lock

`shared/src/rag/sync-lock.ts`: one Redis key per repository, taken with `SET NX PX`,
prolonged by `REFRESH_SCRIPT` and deleted by `RELEASE_SCRIPT`. The holder does not see the
key. It goes by `heldUntil`, measured from when a command was sent, and what it knows of the
key comes from answers that arrive late, out of order or never.

`rag_sync_lock_excludes`: in every reachable state at most one unreleased lock reports that
it is held, and a script that changes the key finds the key of its own sender there.

`acquireRagSyncLock` calls `attempt` again and again. Here an attempt starts at any time,
so any number of contenders polling in any rhythm is covered. A command that is never
executed stays in flight, and an answer that is never delivered stays on its way.
-/

namespace Haive.Queues

open Lib

/-! ## The key and the scripts -/

/-- The value and the expiry of `haive:rag-sync:<repositoryId>`. `setBy` is the attempt
whose `SET` wrote it. Redis does not store that, no script reads it. -/
structure RagKey where
  token : Nat
  expiry : Nat
  setBy : Nat
deriving DecidableEq

/-- What `GET` sees. -/
def RagKey.live (key : Option RagKey) (now : Nat) : Option RagKey :=
  key.filter fun k => now ≤ k.expiry

/-- `SET key token PX ttlMs NX`: `OK` or null. Redis refuses a time to live of 0. -/
def setNxPx (key : Option RagKey) (now ttlMs token setBy : Nat) : Option Bool × Option RagKey :=
  if ttlMs = 0 then (none, key)
  else
    match RagKey.live key now with
    | some _ => (some false, key)
    | none => (some true, some ⟨token, now + ttlMs, setBy⟩)

/-- `REFRESH_SCRIPT`. A key that is there was set with a time to live that is not 0, so
`PEXPIRE` never deletes it. -/
def refreshScript (key : Option RagKey) (now ttlMs token : Nat) : Bool × Option RagKey :=
  match RagKey.live key now with
  | some k => if k.token = token then (true, some { k with expiry := now + ttlMs }) else (false, key)
  | none => (false, key)

/-- `RELEASE_SCRIPT`. -/
def releaseScript (key : Option RagKey) (now token : Nat) : Option RagKey :=
  match RagKey.live key now with
  | some k => if k.token = token then none else key
  | none => key

theorem RagKey.live_eq_some {key : Option RagKey} {now : Nat} {k : RagKey} :
    RagKey.live key now = some k ↔ key = some k ∧ now ≤ k.expiry := by
  simp [RagKey.live, Option.filter_eq_some_iff]

theorem setNxPx_cases (key : Option RagKey) (now ttlMs token setBy : Nat) :
    (RagKey.live key now = none ∧
      setNxPx key now ttlMs token setBy = (some true, some ⟨token, now + ttlMs, setBy⟩)) ∨
    ∃ answer, answer ≠ some true ∧ setNxPx key now ttlMs token setBy = (answer, key) := by
  unfold setNxPx
  split
  · exact .inr ⟨none, by simp, rfl⟩
  · cases hl : RagKey.live key now with
    | none => exact .inl ⟨rfl, rfl⟩
    | some k => exact .inr ⟨some false, by simp, rfl⟩

/-- A refresh answers 1 and prolongs the key of its own token, or changes nothing. -/
theorem refreshScript_cases (key : Option RagKey) (now ttlMs token : Nat) :
    (∃ k, key = some k ∧ k.token = token ∧
      refreshScript key now ttlMs token = (true, some { k with expiry := now + ttlMs })) ∨
    refreshScript key now ttlMs token = (false, key) := by
  unfold refreshScript
  cases hl : RagKey.live key now with
  | none => exact .inr rfl
  | some k =>
    by_cases htok : k.token = token
    · exact .inl ⟨k, (RagKey.live_eq_some.mp hl).1, htok, if_pos htok⟩
    · exact .inr (if_neg htok)

/-- A release deletes the key of its own token, or changes nothing. -/
theorem releaseScript_cases (key : Option RagKey) (now token : Nat) :
    (∃ k, key = some k ∧ k.token = token ∧ releaseScript key now token = none) ∨
    releaseScript key now token = key := by
  unfold releaseScript
  cases hl : RagKey.live key now with
  | none => exact .inr rfl
  | some k =>
    by_cases htok : k.token = token
    · exact .inl ⟨k, (RagKey.live_eq_some.mp hl).1, htok, if_pos htok⟩
    · exact .inr (if_neg htok)

/-! ## Attempts, commands and answers -/

/-- The variables the lock object of an attempt closes over. -/
structure RagLock where
  heldUntil : Nat
  lost : Bool
  released : Bool
deriving DecidableEq

/-- `RagSyncLock.lost`. -/
def RagLock.isLost (lock : RagLock) (now : Nat) : Bool := lock.lost || lock.heldUntil ≤ now

inductive RagPhase
  /-- `SET` is sent and not answered. -/
  | taking
  /-- `bounded` rejected: the command timed out, failed or was aborted. -/
  | gaveUp
  /-- `attempt` returned null. -/
  | refused
  | holding (lock : RagLock)
deriving DecidableEq

structure RagAttempt where
  token : Nat
  startedAt : Nat
  phase : RagPhase
deriving DecidableEq

/-- An attempt whose lock is not released and says it is held: `assertHeld` passes. -/
def RagAttempt.reportsHeld (a : RagAttempt) (now : Nat) : Bool :=
  match a.phase with
  | .holding lock => !lock.released && !lock.isLost now
  | _ => false

inductive RagOp
  | take
  | refresh (sentAt : Nat)
  | release
deriving DecidableEq

structure RagCommand where
  sender : Nat
  token : Nat
  op : RagOp
deriving DecidableEq

/-- The answers somebody waits for. That of `RELEASE_SCRIPT` is dropped. -/
inductive RagAnswer
  | taken (sender : Nat) (ok : Bool)
  | kept (sender : Nat) (sentAt : Nat) (one : Bool)
deriving DecidableEq

def RagAnswer.sender : RagAnswer → Nat
  | .taken sender _ => sender
  | .kept sender _ _ => sender

structure RagSys where
  now : Nat
  ttlMs : Nat
  key : Option RagKey
  attempts : List RagAttempt
  inFlight : List RagCommand
  answers : List RagAnswer
deriving DecidableEq

inductive RagAct
  | tick (ms : Nat)
  /-- `attempt` is called and sends `SET`. -/
  | attempt (token : Nat)
  /-- `bounded` rejects the `SET` of an attempt. -/
  | giveUp (i : Nat)
  /-- The heartbeat interval of a lock fires. -/
  | beat (i : Nat)
  /-- A holder calls `release`. -/
  | release (i : Nat)
  /-- A command in flight is executed. -/
  | run (n : Nat)
  /-- An answer on its way arrives. -/
  | deliver (n : Nat)
deriving DecidableEq

/-! ## Steps -/

def RagCommand.exec (c : RagCommand) (key : Option RagKey) (now ttlMs : Nat) : Option RagAnswer × Option RagKey :=
  match c.op with
  | .take =>
    let (answer, key) := setNxPx key now ttlMs c.token c.sender
    (answer.map (.taken c.sender), key)
  | .refresh sentAt =>
    let (one, key) := refreshScript key now ttlMs c.token
    (some (.kept c.sender sentAt one), key)
  | .release => (none, releaseScript key now c.token)

namespace RagSys

def start (ttlMs : Nat) : RagSys := ⟨0, ttlMs, none, [], [], []⟩

def setPhase (s : RagSys) (i : Nat) (a : RagAttempt) (phase : RagPhase) : RagSys :=
  { s with attempts := s.attempts.set i { a with phase } }

def send (s : RagSys) (sender token : Nat) (op : RagOp) : RagSys :=
  { s with inFlight := s.inFlight ++ [⟨sender, token, op⟩] }

/-- The command at `n` has been executed. -/
def ran (s : RagSys) (n : Nat) (answer : Option RagAnswer) (key : Option RagKey) : RagSys :=
  { s with key, inFlight := s.inFlight.eraseIdx n, answers := s.answers ++ answer.toList }

def dropAnswer (s : RagSys) (n : Nat) : RagSys := { s with answers := s.answers.eraseIdx n }

/-- The continuation of the `SET` of attempt `i`: of `bounded` while it waits, of the late
clean-up after it rejected. -/
def onTaken (s : RagSys) (i : Nat) (a : RagAttempt) (ok : Bool) : RagSys :=
  match a.phase with
  | .taking =>
    if ok then s.setPhase i a (.holding ⟨a.startedAt + s.ttlMs, false, false⟩)
    else s.setPhase i a .refused
  | .gaveUp => if ok then s.send i a.token .release else s
  | _ => s

/-- The continuation of a heartbeat of attempt `i`. -/
def onKept (s : RagSys) (i : Nat) (a : RagAttempt) (sentAt : Nat) (one : Bool) : RagSys :=
  match a.phase with
  | .holding lock =>
    if one then s.setPhase i a (.holding { lock with heldUntil := sentAt + s.ttlMs })
    else s.setPhase i a (.holding { lock with lost := true })
  | _ => s

def step (s : RagSys) : RagAct → Option RagSys
  | .tick ms => some { s with now := s.now + ms }
  | .attempt token =>
    if s.attempts.any fun a => a.token = token then none
    else
      let sent := s.send s.attempts.length token .take
      some { sent with attempts := s.attempts ++ [⟨token, s.now, .taking⟩] }
  | .giveUp i =>
    match s.attempts[i]? with
    | some a => if a.phase = .taking then some (s.setPhase i a .gaveUp) else none
    | none => none
  | .beat i =>
    match s.attempts[i]? with
    | some a =>
      match a.phase with
      -- `release` and the first answer 0 stop the interval.
      | .holding lock =>
        if lock.released || lock.lost then none else some (s.send i a.token (.refresh s.now))
      | _ => none
    | none => none
  | .release i =>
    match s.attempts[i]? with
    | some a =>
      match a.phase with
      | .holding lock =>
        if lock.released then some s
        else some ((s.setPhase i a (.holding { lock with released := true })).send i a.token .release)
      | _ => none
    | none => none
  | .run n =>
    match s.inFlight[n]? with
    | some c =>
      let (answer, key) := c.exec s.key s.now s.ttlMs
      some (s.ran n answer key)
    | none => none
  | .deliver n =>
    match s.answers[n]? with
    | some (.taken i ok) => s.attempts[i]?.map fun a => (s.dropAnswer n).onTaken i a ok
    | some (.kept i sentAt one) => s.attempts[i]?.map fun a => (s.dropAnswer n).onKept i a sentAt one
    | none => none

end RagSys

/-! ## The invariant -/

/-- Nobody goes by the lock of this attempt any more. -/
def RagAttempt.Done (a : RagAttempt) : Prop :=
  a.phase = .gaveUp ∨ ∃ lock, a.phase = .holding lock ∧ lock.released = true

/-- What holds of the sender of a command while it is in flight. -/
def RagOp.Due (a : RagAttempt) (now : Nat) : RagOp → Prop
  | .take => a.startedAt ≤ now
  | .refresh sentAt => sentAt ≤ now
  | .release => a.Done

namespace RagSys

/-- The times up to which the attempt `a` at `i` counts on the key, or will once an answer
that is on its way arrives. -/
inductive Promised (s : RagSys) (i : Nat) (a : RagAttempt) : Nat → Prop
  | belief {lock : RagLock} : a.phase = .holding lock → Promised s i a lock.heldUntil
  | taken : .taken i true ∈ s.answers → Promised s i a (a.startedAt + s.ttlMs)
  | kept {sentAt : Nat} : .kept i sentAt true ∈ s.answers → Promised s i a (sentAt + s.ttlMs)

/-- Up to the time `t` the key is that of attempt `i`. -/
def Backed (s : RagSys) (i t : Nat) : Prop :=
  s.now < t → ∃ k, s.key = some k ∧ k.setBy = i ∧ t ≤ k.expiry

structure Sound (s : RagSys) : Prop where
  key : ∀ k, s.key = some k →
    k.expiry ≤ s.now + s.ttlMs ∧ ∃ a, s.attempts[k.setBy]? = some a ∧ a.token = k.token
  sent : ∀ c ∈ s.inFlight, ∃ a, s.attempts[c.sender]? = some a ∧ a.token = c.token ∧ c.op.Due a s.now
  answered : ∀ x ∈ s.answers, x.sender < s.attempts.length
  distinct : ∀ (i j : Nat) (a b : RagAttempt), s.attempts[i]? = some a → s.attempts[j]? = some b →
    a.token = b.token → i = j
  backed : ∀ (i t : Nat) (a : RagAttempt), s.attempts[i]? = some a → ¬ a.Done → s.Promised i a t →
    s.Backed i t

variable {s : RagSys} {i j t : Nat} {a b : RagAttempt} {phase : RagPhase}

theorem sound_start (ttlMs : Nat) : (start ttlMs).Sound where
  key k hk := by cases hk
  sent c hc := by cases hc
  answered x hx := by cases hx
  distinct i j a b ha := by simp [start] at ha
  backed i t a ha := by simp [start] at ha

theorem getElem?_setPhase (phase : RagPhase) (ha : s.attempts[i]? = some a) :
    (s.setPhase i a phase).attempts[j]? = if i = j then some { a with phase } else s.attempts[j]? := by
  obtain ⟨hlt, -⟩ := List.getElem?_eq_some_iff.mp ha
  rw [setPhase, List.getElem?_set]
  grind

/-- A change of phase keeps every attempt, its token and its time. -/
theorem exists_setPhase (phase : RagPhase) (ha : s.attempts[i]? = some a) (hb : s.attempts[j]? = some b) :
    ∃ b', (s.setPhase i a phase).attempts[j]? = some b' ∧ b'.token = b.token ∧ b'.startedAt = b.startedAt ∧
      (i ≠ j → b' = b) := by
  rw [getElem?_setPhase _ ha]
  by_cases hij : i = j
  · subst hij
    rw [ha] at hb
    cases hb
    exact ⟨_, if_pos rfl, rfl, rfl, fun hne => absurd rfl hne⟩
  · exact ⟨b, by rw [if_neg hij, hb], rfl, rfl, fun _ => rfl⟩

theorem Sound.setPhase (h : s.Sound) (ha : s.attempts[i]? = some a)
    (hdone : a.Done → { a with phase }.Done)
    (hbelief : ∀ lock, phase = .holding lock → ¬ { a with phase }.Done → s.Backed i lock.heldUntil) :
    (s.setPhase i a phase).Sound where
  key k hk := by
    obtain ⟨hexp, b, hb, htok⟩ := h.key k hk
    obtain ⟨b', hb', htok', -⟩ := exists_setPhase phase ha hb
    exact ⟨hexp, b', hb', htok'.trans htok⟩
  sent c hc := by
    obtain ⟨b, hb, htok, hdue⟩ := h.sent c hc
    obtain ⟨b', hb', htok', hstart, hsame⟩ := exists_setPhase phase ha hb
    refine ⟨b', hb', htok'.trans htok, ?_⟩
    cases hop : c.op with
    | take =>
      rw [hop] at hdue
      exact hstart.le.trans hdue
    | refresh sentAt =>
      rw [hop] at hdue
      exact hdue
    | release =>
      rw [hop] at hdue
      by_cases hij : i = c.sender
      · subst hij
        rw [ha] at hb
        rw [getElem?_setPhase _ ha, if_pos rfl] at hb'
        cases hb
        cases hb'
        exact hdone hdue
      · exact (hsame hij).symm ▸ hdue
  answered x hx := by simpa [RagSys.setPhase] using h.answered x hx
  distinct j k b c hb hc htok := by
    rw [getElem?_setPhase _ ha] at hb hc
    have := h.distinct j k
    grind
  backed j t b hb hnot hp := by
    rw [getElem?_setPhase _ ha] at hb
    split at hb
    case isTrue hij =>
      subst hij
      cases hb
      have hnota : ¬ a.Done := fun hd => hnot (hdone hd)
      cases hp with
      | belief hph => exact hbelief _ hph hnot
      | taken hm => exact h.backed i _ a ha hnota (.taken hm)
      | kept hm => exact h.backed i _ a ha hnota (.kept hm)
    case isFalse hij =>
      refine h.backed j t b hb hnot ?_
      cases hp with
      | belief hph => exact .belief hph
      | taken hm => exact .taken hm
      | kept hm => exact .kept hm

theorem Sound.send {op : RagOp} {token : Nat} (h : s.Sound) (ha : s.attempts[i]? = some a)
    (htok : a.token = token) (hdue : op.Due a s.now) : (s.send i token op).Sound where
  key := h.key
  sent c hc := by
    rcases List.mem_append.mp hc with hc | hc
    · exact h.sent c hc
    · cases List.mem_singleton.mp hc
      exact ⟨a, ha, htok, hdue⟩
  answered := h.answered
  distinct := h.distinct
  backed j t b hb hnot hp := h.backed j t b hb hnot <| by
    cases hp with
    | belief hph => exact .belief hph
    | taken hm => exact .taken hm
    | kept hm => exact .kept hm

theorem Promised.of_dropAnswer {n : Nat} (hp : (s.dropAnswer n).Promised i a t) : s.Promised i a t := by
  cases hp with
  | belief hph => exact .belief hph
  | taken hm => exact .taken (List.mem_of_mem_eraseIdx hm)
  | kept hm => exact .kept (List.mem_of_mem_eraseIdx hm)

theorem Sound.dropAnswer (h : s.Sound) (n : Nat) : (s.dropAnswer n).Sound where
  key := h.key
  sent := h.sent
  answered x hx := h.answered x (List.mem_of_mem_eraseIdx hx)
  distinct := h.distinct
  backed j t b hb hnot hp := h.backed j t b hb hnot hp.of_dropAnswer

theorem onTaken_dropAnswer {ok : Bool} (n : Nat) :
    (s.dropAnswer n).onTaken i a ok = (s.onTaken i a ok).dropAnswer n := by
  unfold RagSys.onTaken
  cases a.phase <;> cases ok <;> rfl

theorem onKept_dropAnswer {sentAt : Nat} {one : Bool} (n : Nat) :
    (s.dropAnswer n).onKept i a sentAt one = (s.onKept i a sentAt one).dropAnswer n := by
  unfold RagSys.onKept
  cases a.phase <;> cases one <;> rfl

/-! ## What a step keeps -/

theorem Sound.tick (h : s.Sound) (ms : Nat) : { s with now := s.now + ms }.Sound where
  key k hk := by
    obtain ⟨hexp, hset⟩ := h.key k hk
    exact ⟨by simp only; omega, hset⟩
  sent c hc := by
    obtain ⟨a, ha, htok, hdue⟩ := h.sent c hc
    refine ⟨a, ha, htok, ?_⟩
    cases hop : c.op with
    | take =>
      rw [hop] at hdue
      exact Nat.le_add_right_of_le hdue
    | refresh sentAt =>
      rw [hop] at hdue
      exact Nat.le_add_right_of_le hdue
    | release =>
      rw [hop] at hdue
      exact hdue
  answered := h.answered
  distinct := h.distinct
  backed i t a ha hnot hp hlt := by
    refine h.backed i t a ha hnot ?_ (Nat.lt_of_le_of_lt (Nat.le_add_right _ _) hlt)
    cases hp with
    | belief hph => exact .belief hph
    | taken hm => exact .taken hm
    | kept hm => exact .kept hm

/-- The lock an `OK` makes counts on what the answer promised. -/
theorem Sound.onTaken {ok : Bool} (h : s.Sound) (ha : s.attempts[i]? = some a)
    (hm : .taken i ok ∈ s.answers) : (s.onTaken i a ok).Sound := by
  unfold RagSys.onTaken
  split
  case h_1 hph =>
    have hnot : ¬ a.Done := by simp [RagAttempt.Done, hph]
    cases ok with
    | true =>
      refine h.setPhase ha (fun hd => absurd hd hnot) fun lock heq _ => ?_
      cases heq
      exact h.backed i _ a ha hnot (.taken hm)
    | false => exact h.setPhase ha (fun hd => absurd hd hnot) fun lock heq => by cases heq
  case h_2 hph =>
    split
    · exact h.send ha rfl (.inl hph)
    · exact h
  case h_3 => exact h

/-- A heartbeat's answer moves the deadline to where the answer promised. -/
theorem Sound.onKept {sentAt : Nat} {one : Bool} (h : s.Sound) (ha : s.attempts[i]? = some a)
    (hm : .kept i sentAt one ∈ s.answers) : (s.onKept i a sentAt one).Sound := by
  unfold RagSys.onKept
  split
  case h_1 lock hph =>
    have hdone : ∀ lock' : RagLock, lock'.released = lock.released → ∀ b : RagAttempt,
        b.phase = .holding lock' → (a.Done ↔ b.Done) := by
      intro lock' hrel b hb
      simp [RagAttempt.Done, hph, hb, hrel]
    cases one with
    | true =>
      have hsame := hdone { lock with heldUntil := sentAt + s.ttlMs } rfl
        { a with phase := .holding { lock with heldUntil := sentAt + s.ttlMs } } rfl
      refine h.setPhase ha hsame.mp fun lock' heq hnot => ?_
      cases heq
      exact h.backed i _ a ha (fun hd => hnot (hsame.mp hd)) (.kept hm)
    | false =>
      have hsame := hdone { lock with lost := true } rfl
        { a with phase := .holding { lock with lost := true } } rfl
      refine h.setPhase ha hsame.mp fun lock' heq hnot => ?_
      cases heq
      exact h.backed i lock.heldUntil a ha (fun hd => hnot (hsame.mp hd)) (.belief hph)
  case h_2 => exact h

theorem Promised.of_ran {n : Nat} {answer : Option RagAnswer} {key : Option RagKey}
    (hp : (s.ran n answer key).Promised i a t) :
    s.Promised i a t ∨ (answer = some (.taken i true) ∧ t = a.startedAt + s.ttlMs) ∨
      ∃ sentAt, answer = some (.kept i sentAt true) ∧ t = sentAt + s.ttlMs := by
  have hmem : ∀ x, x ∈ s.answers ++ answer.toList → x ∈ s.answers ∨ answer = some x := by simp
  cases hp with
  | belief hph => exact .inl (.belief hph)
  | taken hm =>
    rcases hmem _ hm with hm | heq
    · exact .inl (.taken hm)
    · exact .inr (.inl ⟨heq, rfl⟩)
  | kept hm =>
    rcases hmem _ hm with hm | heq
    · exact .inl (.kept hm)
    · exact .inr (.inr ⟨_, heq, rfl⟩)

theorem Sound.ran {n : Nat} {answer : Option RagAnswer} {key : Option RagKey} (h : s.Sound)
    (hanswer : ∀ x, answer = some x → x.sender < s.attempts.length)
    (hkey : ∀ k, key = some k →
      k.expiry ≤ s.now + s.ttlMs ∧ ∃ a, s.attempts[k.setBy]? = some a ∧ a.token = k.token)
    (hback : ∀ (j t : Nat) (b : RagAttempt), s.attempts[j]? = some b → ¬ b.Done →
      (s.ran n answer key).Promised j b t → (s.ran n answer key).Backed j t) : (s.ran n answer key).Sound where
  key := hkey
  sent c hc := h.sent c (List.mem_of_mem_eraseIdx hc)
  answered x hx := by
    rcases List.mem_append.mp hx with hx | hx
    · exact h.answered x hx
    · exact hanswer x (Option.mem_toList.mp hx)
  distinct := h.distinct
  backed := hback

/-- An answer that promises nothing leaves the key as it was. -/
theorem Sound.ran_same {n : Nat} {answer : Option RagAnswer} (h : s.Sound)
    (hanswer : ∀ x, answer = some x → x.sender < s.attempts.length)
    (htaken : ∀ i, answer ≠ some (.taken i true)) (hkept : ∀ i sentAt, answer ≠ some (.kept i sentAt true)) :
    (s.ran n answer s.key).Sound := by
  refine h.ran hanswer h.key fun j t b hb hnot hp => ?_
  rcases hp.of_ran with hp | ⟨heq, -⟩ | ⟨sentAt, heq, -⟩
  · exact h.backed j t b hb hnot hp
  · exact absurd heq (htaken j)
  · exact absurd heq (hkept j sentAt)

/-- A `SET` that is answered `OK` found no live key, so nobody counts on one. -/
theorem Sound.ran_take (h : s.Sound) (n : Nat) (ha : s.attempts[i]? = some a) (hstart : a.startedAt ≤ s.now) :
    let r := setNxPx s.key s.now s.ttlMs a.token i
    (s.ran n (r.1.map (RagAnswer.taken i)) r.2).Sound := by
  obtain ⟨hlt, -⟩ := List.getElem?_eq_some_iff.mp ha
  rcases setNxPx_cases s.key s.now s.ttlMs a.token i with ⟨hdead, heq⟩ | ⟨answer, hans, heq⟩ <;> rw [heq]
  · refine h.ran (fun x hx => by cases hx; exact hlt) (fun k hk => ?_) fun j t b hb hnot hp hlt => ?_
    · cases hk
      exact ⟨le_rfl, a, ha, rfl⟩
    rcases hp.of_ran with hp | ⟨heq, rfl⟩ | ⟨sentAt, heq, -⟩
    · -- the key that backs `j` would still be live
      obtain ⟨k, hk, -, hle⟩ := h.backed j t b hb hnot hp hlt
      have hlive := RagKey.live_eq_some.mpr ⟨hk, hlt.le.trans hle⟩
      cases hdead.symm.trans hlive
    · cases heq
      rw [ha] at hb
      cases hb
      exact ⟨_, rfl, rfl, Nat.add_le_add_right hstart _⟩
    · cases heq
  · refine h.ran_same (fun x hx => ?_) (fun j heq => ?_) fun j sentAt heq => ?_
    · obtain ⟨ok, -, rfl⟩ := Option.map_eq_some_iff.mp hx
      exact hlt
    · obtain ⟨ok, rfl, hok⟩ := Option.map_eq_some_iff.mp heq
      cases hok
      exact hans rfl
    · obtain ⟨ok, -, hok⟩ := Option.map_eq_some_iff.mp heq
      cases hok

/-- A refresh that is answered 1 lets the key live longer, for whoever counts on it. -/
theorem Sound.ran_refresh (h : s.Sound) (n : Nat) {sentAt : Nat} (ha : s.attempts[i]? = some a)
    (hsent : sentAt ≤ s.now) :
    let r := refreshScript s.key s.now s.ttlMs a.token
    (s.ran n (some (.kept i sentAt r.1)) r.2).Sound := by
  obtain ⟨hlt, -⟩ := List.getElem?_eq_some_iff.mp ha
  rcases refreshScript_cases s.key s.now s.ttlMs a.token with ⟨k, hk, htok, heq⟩ | heq <;> rw [heq]
  · obtain ⟨hexp, b, hb, hbtok⟩ := h.key k hk
    obtain rfl : i = k.setBy := h.distinct i _ a b ha hb (hbtok.trans htok).symm
    refine h.ran (fun x hx => by cases hx; exact hlt) (fun k' hk' => ?_) fun j t c hc hnot hp hlt => ?_
    · cases hk'
      exact ⟨le_rfl, b, hb, hbtok⟩
    rcases hp.of_ran with hp | ⟨heq, -⟩ | ⟨sentAt', heq, rfl⟩
    · obtain ⟨k', hk', hby, hle⟩ := h.backed j t c hc hnot hp hlt
      rw [hk] at hk'
      cases hk'
      exact ⟨_, rfl, hby, hle.trans hexp⟩
    · cases heq
    · cases heq
      exact ⟨_, rfl, rfl, Nat.add_le_add_right hsent _⟩
  · exact h.ran_same (fun x hx => by cases hx; exact hlt) (fun j heq => by cases heq)
      fun j sentAt heq => by cases heq

/-- A release deletes the key of an attempt that nobody goes by. -/
theorem Sound.ran_release (h : s.Sound) (n : Nat) (ha : s.attempts[i]? = some a) (hdone : a.Done) :
    (s.ran n none (releaseScript s.key s.now a.token)).Sound := by
  rcases releaseScript_cases s.key s.now a.token with ⟨k, hk, htok, heq⟩ | heq <;> rw [heq]
  · obtain ⟨-, b, hb, hbtok⟩ := h.key k hk
    obtain rfl : i = k.setBy := h.distinct i _ a b ha hb (hbtok.trans htok).symm
    refine h.ran (fun x hx => by cases hx) (fun k' hk' => by cases hk') fun j t c hc hnot hp hlt => ?_
    rcases hp.of_ran with hp | ⟨heq, -⟩ | ⟨sentAt, heq, -⟩
    · obtain ⟨k', hk', rfl, -⟩ := h.backed j t c hc hnot hp hlt
      rw [hk] at hk'
      cases hk'
      rw [ha] at hc
      cases hc
      exact absurd hdone hnot
    · cases heq
    · cases heq
  · exact h.ran_same (fun x hx => by cases hx) (fun j heq => by cases heq) fun j sentAt heq => by cases heq

theorem Sound.run {n : Nat} {c : RagCommand} (h : s.Sound) (hc : s.inFlight[n]? = some c) :
    (s.ran n (c.exec s.key s.now s.ttlMs).1 (c.exec s.key s.now s.ttlMs).2).Sound := by
  obtain ⟨a, ha, htok, hdue⟩ := h.sent c (List.mem_of_getElem? hc)
  unfold RagCommand.exec
  rw [← htok]
  split
  case h_1 hop =>
    rw [hop] at hdue
    exact h.ran_take n ha hdue
  case h_2 hop =>
    rw [hop] at hdue
    exact h.ran_refresh n ha hdue
  case h_3 hop =>
    rw [hop] at hdue
    exact h.ran_release n ha hdue

theorem getElem?_attempt (ha : s.attempts[i]? = some a) : (s.attempts ++ [b])[i]? = some a := by
  obtain ⟨hlt, -⟩ := List.getElem?_eq_some_iff.mp ha
  rw [List.getElem?_append_left hlt, ha]

/-- A new attempt counts on nothing yet. -/
theorem Sound.attempt {token : Nat} (h : s.Sound) (hfresh : ∀ a ∈ s.attempts, a.token ≠ token) :
    RagSys.Sound { s.send s.attempts.length token .take with
      attempts := s.attempts ++ [⟨token, s.now, .taking⟩] } where
  key k hk := by
    obtain ⟨hexp, a, ha, htok⟩ := h.key k hk
    exact ⟨hexp, a, getElem?_attempt ha, htok⟩
  sent c hc := by
    rcases List.mem_append.mp hc with hc | hc
    · obtain ⟨a, ha, htok, hdue⟩ := h.sent c hc
      exact ⟨a, getElem?_attempt ha, htok, hdue⟩
    · cases List.mem_singleton.mp hc
      exact ⟨_, List.getElem?_concat_length, rfl, le_rfl⟩
  answered x hx := by
    rw [List.length_append]
    exact Nat.lt_add_right _ (h.answered x hx)
  distinct i j a b ha hb htok := by
    have hmem := @List.mem_of_getElem? RagAttempt
    have := h.distinct i j a b
    grind
  backed i t a ha hnot hp := by
    rcases Nat.lt_or_ge i s.attempts.length with hlt | hge
    · rw [List.getElem?_append_left hlt] at ha
      refine h.backed i t a ha hnot ?_
      cases hp with
      | belief hph => exact .belief hph
      | taken hm => exact .taken hm
      | kept hm => exact .kept hm
    · cases hp with
      | belief hph =>
        rw [List.getElem?_append_right hge, List.getElem?_singleton] at ha
        split at ha
        · cases ha
          cases hph
        · cases ha
      | taken hm => exact absurd (h.answered _ hm) (Nat.not_lt.mpr hge)
      | kept hm => exact absurd (h.answered _ hm) (Nat.not_lt.mpr hge)

theorem Sound.giveUp (h : s.Sound) (ha : s.attempts[i]? = some a) : (s.setPhase i a .gaveUp).Sound :=
  h.setPhase ha (fun _ => .inl rfl) fun lock heq => by cases heq

theorem Sound.release {lock : RagLock} (h : s.Sound) (ha : s.attempts[i]? = some a) :
    ((s.setPhase i a (.holding { lock with released := true })).send i a.token .release).Sound := by
  have hdone : { a with phase := .holding { lock with released := true } }.Done := .inr ⟨_, rfl, rfl⟩
  have hset := h.setPhase ha (fun _ => hdone) fun lock' _ hnot => absurd hdone hnot
  have hat := (getElem?_setPhase (.holding { lock with released := true }) (j := i) ha).trans (if_pos rfl)
  exact hset.send hat rfl hdone

theorem Sound.step {act : RagAct} {s' : RagSys} (h : s.Sound) (hs : s.step act = some s') : s'.Sound := by
  cases act with
  | tick ms =>
    cases hs
    exact h.tick ms
  | attempt token =>
    rw [RagSys.step] at hs
    split at hs
    case isTrue => cases hs
    case isFalse hfresh =>
      cases hs
      exact h.attempt (by simpa using hfresh)
  | giveUp i =>
    rw [RagSys.step] at hs
    split at hs
    case h_2 => cases hs
    case h_1 a ha =>
      split at hs
      · cases hs
        exact h.giveUp ha
      · cases hs
  | beat i =>
    rw [RagSys.step] at hs
    split at hs
    case h_2 => cases hs
    case h_1 a ha =>
      split at hs
      case h_2 => cases hs
      case h_1 lock hph =>
        split at hs
        · cases hs
        · cases hs
          exact h.send ha rfl le_rfl
  | release i =>
    rw [RagSys.step] at hs
    split at hs
    case h_2 => cases hs
    case h_1 a ha =>
      split at hs
      case h_2 => cases hs
      case h_1 lock hph =>
        split at hs
        · cases hs
          exact h
        · cases hs
          exact h.release ha
  | run n =>
    rw [RagSys.step] at hs
    split at hs
    case h_2 => cases hs
    case h_1 c hc =>
      cases hs
      exact h.run hc
  | deliver n =>
    rw [RagSys.step] at hs
    split at hs
    case h_3 => cases hs
    case h_1 i ok hm =>
      obtain ⟨a, ha, rfl⟩ := Option.map_eq_some_iff.mp hs
      rw [onTaken_dropAnswer]
      exact (h.onTaken ha (List.mem_of_getElem? hm)).dropAnswer n
    case h_2 i sentAt one hm =>
      obtain ⟨a, ha, rfl⟩ := Option.map_eq_some_iff.mp hs
      rw [onKept_dropAnswer]
      exact (h.onKept ha (List.mem_of_getElem? hm)).dropAnswer n

/-! ## Exclusion -/

theorem Backed.key {t : Nat} (h : s.Backed i t) (hlt : s.now < t) : ∃ k, s.key = some k ∧ k.setBy = i :=
  let ⟨k, hk, hby, _⟩ := h hlt
  ⟨k, hk, hby⟩

theorem Sound.setBy_of_reportsHeld (h : s.Sound) (ha : s.attempts[i]? = some a)
    (hheld : a.reportsHeld s.now = true) : ∃ k, s.key = some k ∧ k.setBy = i := by
  unfold RagAttempt.reportsHeld at hheld
  split at hheld
  case h_2 => cases hheld
  case h_1 lock hph =>
    simp only [RagLock.isLost, Bool.and_eq_true, Bool.not_eq_true', Bool.or_eq_false_iff,
      decide_eq_false_iff_not, Nat.not_le] at hheld
    obtain ⟨hrel, -, hlt⟩ := hheld
    have hnot : ¬ a.Done := by simp [RagAttempt.Done, hph, hrel]
    exact (h.backed i _ a ha hnot (.belief hph)).key hlt

theorem Sound.setBy_of_exec {n : Nat} {c : RagCommand} (h : s.Sound) (hc : s.inFlight[n]? = some c)
    (hop : c.op ≠ .take) (hne : (c.exec s.key s.now s.ttlMs).2 ≠ s.key) :
    ∃ k, s.key = some k ∧ k.setBy = c.sender := by
  obtain ⟨a, ha, htok, -⟩ := h.sent c (List.mem_of_getElem? hc)
  have hown : (∃ k, s.key = some k ∧ k.token = c.token) → ∃ k, s.key = some k ∧ k.setBy = c.sender := by
    rintro ⟨k, hk, hktok⟩
    obtain ⟨-, b, hb, hbtok⟩ := h.key k hk
    exact ⟨k, hk, h.distinct _ _ b a hb ha (by rw [hbtok, hktok, htok])⟩
  apply hown
  unfold RagCommand.exec at hne
  split at hne
  case h_1 htake => exact absurd htake hop
  case h_2 =>
    rcases refreshScript_cases s.key s.now s.ttlMs c.token with ⟨k, hk, hktok, -⟩ | heq
    · exact ⟨k, hk, hktok⟩
    · rw [heq] at hne
      exact absurd rfl hne
  case h_3 =>
    rcases releaseScript_cases s.key s.now c.token with ⟨k, hk, hktok, -⟩ | heq
    · exact ⟨k, hk, hktok⟩
    · exact absurd heq hne

end RagSys

/-- In every reachable state at most one unreleased lock reports that it is held, and a
release, late clean-up or refresh that changes the key finds the key its own sender set. -/
theorem rag_sync_lock_excludes {ttlMs : Nat} {acts : List RagAct} {s : RagSys}
    (hrun : runs RagSys.step (.start ttlMs) acts = some s) :
    (∀ (i j : Nat) (a b : RagAttempt), s.attempts[i]? = some a → s.attempts[j]? = some b →
      a.reportsHeld s.now = true → b.reportsHeld s.now = true → i = j) ∧
    ∀ (n : Nat) (c : RagCommand) (s' : RagSys), s.inFlight[n]? = some c → c.op ≠ .take →
      s.step (.run n) = some s' → s'.key ≠ s.key → ∃ k, s.key = some k ∧ k.setBy = c.sender := by
  have h : s.Sound := runs_keep (fun _ _ _ h hs => h.step hs) (RagSys.sound_start ttlMs) hrun
  refine ⟨fun i j a b ha hb hheld hheld' => ?_, fun n c s' hc hop hs hne => ?_⟩
  · obtain ⟨k, hk, rfl⟩ := h.setBy_of_reportsHeld ha hheld
    obtain ⟨k', hk', rfl⟩ := h.setBy_of_reportsHeld hb hheld'
    rw [hk] at hk'
    cases hk'
    rfl
  · rw [RagSys.step, hc] at hs
    cases hs
    exact h.setBy_of_exec hc hop hne

namespace RagSys.Sample

/-- The first holder's refresh is stuck until its key has expired and another has it. -/
def handover : List RagAct :=
  [.attempt 7, .run 0, .deliver 0, .tick 60, .beat 0, .tick 41, .attempt 8, .run 1, .deliver 0, .run 0, .deliver 0,
   .release 0]

end RagSys.Sample

open RagSys.Sample in
theorem rag_sync_lock_excludes_handover :
    ∃ s, runs RagSys.step (.start 100) handover = some s ∧
      (s.attempts.map fun a => a.reportsHeld s.now) = [false, true] ∧
      (∀ (i j : Nat) (a b : RagAttempt), s.attempts[i]? = some a → s.attempts[j]? = some b →
        a.reportsHeld s.now = true → b.reportsHeld s.now = true → i = j) ∧
      ∀ (n : Nat) (c : RagCommand) (s' : RagSys), s.inFlight[n]? = some c → c.op ≠ .take →
        s.step (.run n) = some s' → s'.key ≠ s.key → ∃ k, s.key = some k ∧ k.setBy = c.sender :=
  ⟨_, rfl, by decide, rag_sync_lock_excludes (show runs RagSys.step (.start 100) handover = some _ from rfl)⟩

end Haive.Queues

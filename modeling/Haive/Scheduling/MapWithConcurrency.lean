import Haive.Scheduling.BoundedConcurrency

/-!
# Mapping with bounded concurrency

`mapWithConcurrency`: every item is submitted to a limiter of its own, each task writes its result at its
index, and the call returns when all of them are through.
-/

namespace Haive.Scheduling

open Lib (runs)

variable {I O E : Type}

/-- The limiter, the result array and the first rejection that a caller was given. -/
structure Mapping (O E : Type) where
  limiter : Limiter (Except E Unit)
  results : Nat → Option O
  failure : Option E

inductive MapEvent (O E : Type)
  | invoke
  | settle (index : Nat) (r : Except E O)
  | report (index : Nat)
  | release (index : Nat)

/-- `items.map((item, index) => limiter.run(..))`. -/
def submitAll (limit : Limit) : Nat → Limiter (Except E Unit)
  | 0 => createBoundedConcurrency _
  | n + 1 => submit limit (submitAll limit n)

def startMapping (limit : Limit) (items : Nat) : Mapping O E := ⟨submitAll limit items, fun _ => none, none⟩

/-- `results[index] = await fn(item, index)`. -/
def write (results : Nat → Option O) (index : Nat) (r : Except E O) : Nat → Option O :=
  match r with
  | .ok value => fun i => if i = index then some value else results i
  | .error _ => results

def mapStep (limit : Limit) (s : Mapping O E) : MapEvent O E → Option (Mapping O E)
  | .invoke => (step limit s.limiter .invoke).map fun limiter => { s with limiter := limiter }
  | .settle index r =>
    (step limit s.limiter (.settle index (r.map fun _ => ()))).map fun limiter =>
      { s with limiter := limiter, results := write s.results index r }
  | .report index =>
    (step limit s.limiter (.report index)).map fun limiter =>
      { s with
        limiter := limiter
        failure := s.failure.or (match limiter.caller index with
          | some (.error e) => some e
          | _ => none) }
  | .release index => (step limit s.limiter (.release index)).map fun limiter => { s with limiter := limiter }

/-- What the call comes to, once it does: the first rejection or the array. -/
def returned (s : Mapping O E) (items : Nat) : Option (Except E (List (Option O))) :=
  match s.failure with
  | some e => some (.error e)
  | none =>
    if (List.range items).all fun index => (s.limiter.caller index).isSome then some (.ok ((List.range items).map s.results))
    else none

/-! ## No task fails -/

/-- The tasks that are through have written what `fn` gave for their item. -/
structure Mapped (limit : Limit) (items : List I) (fn : I → Nat → O) (s : Mapping O E) : Prop where
  limiter : Ordered limit s.limiter
  submitted : s.limiter.submitted = items.length
  outcomes : ∀ index r, s.limiter.outcome index = some r → r = .ok () ∧ s.results index = items[index]?.map (fn · index)
  failure : s.failure = none

variable {limit : Limit} {items : List I} {fn : I → Nat → O} {s s' : Mapping O E}

theorem pump_fields {R : Type} (limit : Limit) (s : Limiter R) :
    (pump limit s).submitted = s.submitted ∧ (pump limit s).outcome = s.outcome := by
  rw [pump]
  split
  · exact ⟨rfl, rfl⟩
  · split <;> exact ⟨rfl, rfl⟩

theorem submitAll_spec (n : Nat) : Ordered limit (submitAll (E := E) limit n) ∧
    (submitAll (E := E) limit n).submitted = n ∧ (submitAll (E := E) limit n).outcome = fun _ => none := by
  induction n with
  | zero => exact ⟨ordered_create, rfl, rfl⟩
  | succ n ih =>
    obtain ⟨hordered, hsubmitted, houtcome⟩ := ih
    obtain ⟨hfields, hfields'⟩ := pump_fields limit _
    exact ⟨@step_ordered _ limit _ _ hordered .submit rfl, hfields.trans (congrArg (· + 1) hsubmitted), hfields'.trans houtcome⟩

def Event.outcomes {R : Type} (outcome : Nat → Option R) : Event R → Nat → Option R
  | .settle task r => fun t => if t = task then some r else outcome t
  | _ => outcome

theorem step_fields {R : Type} {s s' : Limiter R} {event : Event R} (hstep : step limit s event = some s') :
    s'.outcome = event.outcomes s.outcome ∧ (event ≠ .submit → s'.submitted = s.submitted) := by
  cases event with
  | submit =>
    cases hstep
    exact ⟨(pump_fields limit _).2, fun h => absurd rfl h⟩
  | invoke =>
    rw [step] at hstep
    split at hstep
    · cases hstep
    · cases hstep
      exact ⟨rfl, fun _ => rfl⟩
  | settle task r =>
    rw [step] at hstep
    split at hstep
    · cases hstep
      exact ⟨rfl, fun _ => rfl⟩
    · cases hstep
  | report task =>
    rw [step] at hstep
    split at hstep
    · cases hstep
      exact ⟨rfl, fun _ => rfl⟩
    · cases hstep
  | release task =>
    rw [step] at hstep
    split at hstep
    · cases hstep
      obtain ⟨hsubmitted, houtcome⟩ := pump_fields limit _
      exact ⟨houtcome, fun _ => hsubmitted⟩
    · cases hstep

theorem mapStep_mapped (h : Mapped limit items fn s) {event : MapEvent O E}
    (hok : ∀ index r, event = .settle index r → ∀ item, items[index]? = some item → r = .ok (fn item index))
    (hstep : mapStep limit s event = some s') : Mapped limit items fn s' := by
  cases event with
  | invoke =>
    obtain ⟨limiter, hlimiter, rfl⟩ := Option.map_eq_some_iff.mp hstep
    obtain ⟨houtcome, hsubmitted⟩ := step_fields hlimiter
    refine ⟨step_ordered h.limiter hlimiter, (hsubmitted (by simp)).trans h.submitted, fun index r hr => ?_, h.failure⟩
    exact h.outcomes index r ((congrFun houtcome index).symm.trans hr)
  | settle task r =>
    obtain ⟨limiter, hlimiter, rfl⟩ := Option.map_eq_some_iff.mp hstep
    obtain ⟨houtcome, hsubmitted⟩ := step_fields hlimiter
    have hrunning : task ∈ s.limiter.running := by
      rw [step] at hlimiter
      split at hlimiter
      · assumption
      · cases hlimiter
    have htask : task < items.length := by
      have hstarted := h.limiter.parts.symm.subset (List.mem_append_left _ hrunning)
      rw [← h.submitted, ← List.mem_range]
      exact h.limiter.promised.started.subset hstarted
    obtain ⟨item, hitem⟩ := List.getElem?_eq_some_iff.mpr ⟨htask, rfl⟩ |> fun h => (⟨_, h⟩ : ∃ item, items[task]? = some item)
    obtain rfl := hok task r rfl item hitem
    refine ⟨step_ordered h.limiter hlimiter, (hsubmitted (by simp)).trans h.submitted, fun index r' hr => ?_, h.failure⟩
    dsimp only at hr
    rw [houtcome] at hr
    dsimp only [Event.outcomes] at hr
    dsimp only [write]
    by_cases hindex : index = task
    · rw [if_pos hindex] at hr
      rw [if_pos hindex, hindex, hitem]
      exact ⟨(Option.some.inj hr).symm, rfl⟩
    · rw [if_neg hindex] at hr
      rw [if_neg hindex]
      exact h.outcomes index r' hr
  | report task =>
    obtain ⟨limiter, hlimiter, rfl⟩ := Option.map_eq_some_iff.mp hstep
    obtain ⟨houtcome, hsubmitted⟩ := step_fields hlimiter
    have hordered := step_ordered h.limiter hlimiter
    have houtcomes : ∀ index r, limiter.outcome index = some r →
        r = .ok () ∧ s.results index = items[index]?.map (fn · index) := fun index r hr =>
      h.outcomes index r ((congrFun houtcome index).symm.trans hr)
    refine ⟨hordered, (hsubmitted (by simp)).trans h.submitted, houtcomes, ?_⟩
    dsimp only
    rw [h.failure, Option.none_or]
    cases hcaller : limiter.caller task with
    | none => rfl
    | some r =>
      obtain ⟨rfl, -⟩ := houtcomes task r (hordered.promised.own task r hcaller)
      rfl
  | release task =>
    obtain ⟨limiter, hlimiter, rfl⟩ := Option.map_eq_some_iff.mp hstep
    obtain ⟨houtcome, hsubmitted⟩ := step_fields hlimiter
    refine ⟨step_ordered h.limiter hlimiter, (hsubmitted (by simp)).trans h.submitted, fun index r hr => ?_, h.failure⟩
    exact h.outcomes index r ((congrFun houtcome index).symm.trans hr)

/-- No call of `fn` failed among the events. -/
def NoneFails (items : List I) (fn : I → Nat → O) (events : List (MapEvent O E)) : Prop :=
  ∀ event ∈ events, ∀ index r, event = .settle index r → ∀ item, items[index]? = some item → r = .ok (fn item index)

theorem runs_mapped {events : List (MapEvent O E)} (hok : NoneFails items fn events)
    (hrun : runs (mapStep limit) (startMapping limit items.length) events = some s) : Mapped limit items fn s := by
  have hmet : Lib.Along (mapStep limit) (fun _ event => ∀ index r, event = .settle index r →
      ∀ item, items[index]? = some item → r = .ok (fn item index)) (startMapping limit items.length) events :=
    Lib.along_of_mem hok
  refine Lib.runs_inv (fun _ _ _ h hmet hstep => mapStep_mapped h hmet hstep) ?_ hmet hrun
  obtain ⟨hordered, hsubmitted, houtcome⟩ := submitAll_spec (E := E) items.length
  exact ⟨hordered, hsubmitted, fun index r hr => (by rw [startMapping, houtcome] at hr; cases hr), rfl⟩

theorem Mapped.returned (h : Mapped limit items fn s) :
    (∀ r, returned s items.length = some r → r = .ok (items.mapIdx fun index item => some (fn item index))) ∧
      (Idle s.limiter → (Scheduling.returned s items.length).isSome = true) := by
  have hcaller : ∀ index, (s.limiter.caller index).isSome = true → s.results index = items[index]?.map (fn · index) := by
    intro index hsome
    obtain ⟨r, hr⟩ := Option.isSome_iff_exists.mp hsome
    exact (h.outcomes index r (h.limiter.promised.own index r hr)).2
  constructor
  · intro r hr
    rw [Scheduling.returned, h.failure] at hr
    dsimp only at hr
    split at hr
    · next hall =>
      cases hr
      refine congrArg Except.ok (List.ext_getElem? fun i => ?_)
      rw [List.getElem?_map, List.getElem?_mapIdx]
      by_cases hi : i < items.length
      · have hmem := List.mem_range.mpr hi
        rw [List.getElem?_range hi, Option.map_some, hcaller i (List.all_eq_true.mp hall i hmem),
          List.getElem?_eq_getElem hi, Option.map_some, Option.map_some]
      · have hnone := Nat.le_of_not_lt hi
        rw [List.getElem?_eq_none (by rw [List.length_range]; exact hnone), List.getElem?_eq_none hnone]
        rfl
    · cases hr
  · intro hidle
    rw [Scheduling.returned, h.failure]
    dsimp only
    rw [if_pos]
    · rfl
    · refine List.all_eq_true.mpr fun index hindex => ?_
      obtain ⟨r, -, hr⟩ := h.limiter.promised.idle hidle index (h.submitted ▸ List.mem_range.mp hindex)
      rw [hr]
      rfl

/-- Whatever order the calls and completions come in, the limiter keeps its promises, and a mapping whose tasks
do not fail returns the results in the order of the items. -/
theorem boundedConcurrency_promised (limit : Limit) :
    (∀ {R : Type} (events : List (Event R)) (s : Limiter R), runs (step limit) (createBoundedConcurrency R) events = some s →
      Promised limit s ∧ ∀ event s', step limit s event = some s' → ∀ task r, s.caller task = some r → s'.caller task = some r) ∧
    ∀ {I O E : Type} (items : List I) (fn : I → Nat → O) (events : List (MapEvent O E)) (s : Mapping O E),
      NoneFails items fn events → runs (mapStep limit) (startMapping limit items.length) events = some s →
      (∀ r, returned s items.length = some r → r = .ok (items.mapIdx fun index item => some (fn item index))) ∧
        (Idle s.limiter → (returned s items.length).isSome = true) :=
  ⟨fun _ _ hrun => ⟨(runs_ordered hrun).promised, fun _ _ hstep _ _ => caller_kept (runs_ordered hrun) hstep⟩,
    fun _ _ _ _ hok hrun => (runs_mapped hok hrun).returned⟩

/-- Two items with one slot: the second task starts when the first has given its slot back. -/
def oneAfterOther : List (MapEvent Nat Unit) :=
  [.invoke, .settle 0 (.ok 10), .report 0, .release 0, .invoke, .settle 1 (.ok 21), .report 1, .release 1]

theorem boundedConcurrency_promised_oneAfterOther :
    ∃ s, runs (mapStep (.finite 1)) (startMapping (.finite 1) 2) oneAfterOther = some s ∧
      ∀ r, returned s 2 = some r → r = .ok [some 10, some 21] := by
  have hok : NoneFails [5, 10] (fun item index => 2 * item + index) oneAfterOther := by
    intro event hevent index r hsettle item hitem
    subst hsettle
    simp only [oneAfterOther, List.mem_cons, MapEvent.settle.injEq, reduceCtorEq, false_or, List.not_mem_nil, or_false] at hevent
    rcases hevent with ⟨rfl, rfl⟩ | ⟨rfl, rfl⟩ <;> cases hitem <;> rfl
  exact ⟨_, rfl, ((boundedConcurrency_promised (.finite 1)).2 [5, 10] _ oneAfterOther _ hok rfl).1⟩

end Haive.Scheduling

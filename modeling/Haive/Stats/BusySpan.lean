import Haive.Lib.Spans

/-!
# Busy span

`computeBusySpan` of `shared/src/stats/busy-span.ts`: agent-hours, the union of the agents' busy
intervals, and the union by local day. Milliseconds are rational numbers; the day of an instant and
the end of that day are the time zone's, and parameters here (`Clock`).

An interval without an end is dropped. A walk over the days of an island stops after
`maxBucketSteps` segments, so an island with that many day boundaries inside loses its tail
(`sum_buckets_iff`).
-/

namespace Haive.Stats

open Lib

/-! ## Intervals -/

/-- `Date | string | number | null`; a date may be invalid and a number not finite. -/
inductive Stamp
  | null
  | date (time : Option ℚ)
  | text (s : String)
  | number (n : Option ℚ)

structure BusyInterval where
  start : Stamp
  stop : Stamp

/-- The platform's dates, in the zone of the request. -/
structure Clock where
  parse : String → Option ℚ
  endOfLocalDay : ℚ → ℚ
  dayKey : ℚ → String

def toMs (clock : Clock) : Stamp → Option ℚ
  | .null => none
  | .date time => time
  | .text s => clock.parse s
  | .number n => n

/-- A span, unless one end is missing or they are out of order. -/
def usableSpan (clock : Clock) (iv : BusyInterval) : Option (Span ℚ) :=
  match toMs clock iv.start, toMs clock iv.stop with
  | some start, some stop => if h : start < stop then some ⟨start, stop, h⟩ else none
  | _, _ => none

def usable (clock : Clock) (intervals : List BusyInterval) : List (Span ℚ) := intervals.filterMap (usableSpan clock)

/-! ## Days -/

structure BusySpanBucket where
  bucket : String
  busyMs : ℚ
  islands : Nat

/-- `MAX_BUCKET_STEPS`. -/
def maxBucketSteps : Nat := 4000

/-- The walk over an island from `at`: what is left of it, day by day. -/
def segments (clock : Clock) (stop : ℚ) : Nat → ℚ → List (String × ℚ)
  | 0, _ => []
  | steps + 1, start =>
    if start < stop then
      let boundary := clock.endOfLocalDay start
      let segmentEnd := if start < boundary then min boundary stop else stop
      (clock.dayKey start, segmentEnd - start) :: segments clock stop steps segmentEnd
    else []

/-- An entry after `segment`. -/
def BusySpanBucket.count (segment : String × ℚ) (b : BusySpanBucket) : BusySpanBucket :=
  if b.bucket = segment.1 then { b with busyMs := b.busyMs + segment.2, islands := b.islands + 1 } else b

def addSegment (byBucket : List BusySpanBucket) (segment : String × ℚ) : List BusySpanBucket :=
  if byBucket.any (·.bucket = segment.1) then byBucket.map (·.count segment)
  else byBucket ++ [⟨segment.1, segment.2, 1⟩]

def byBucket (clock : Clock) (islands : List (Span ℚ)) : List BusySpanBucket :=
  (islands.flatMap fun island => segments clock island.stop maxBucketSteps island.start).foldl addSegment []

/-! ## The result -/

structure BusySpanResult where
  busyMs : ℚ
  agentMs : ℚ
  calendarMs : ℚ
  islands : Nat
  concurrency : Option ℚ
  dutyCycle : Option ℚ
  buckets : List BusySpanBucket

def calendarMs : List (Span ℚ) → ℚ
  | [] => 0
  | first :: rest => ((first :: rest).getLast (List.cons_ne_nil first rest)).stop - first.start

def computeBusySpan (clock : Clock) (intervals : List BusyInterval) : BusySpanResult :=
  let usable := usable clock intervals
  let agentMs := Span.total usable
  if usable = [] then ⟨0, agentMs, 0, 0, none, none, []⟩
  else
    let islands := Span.islands usable
    let busyMs := Span.total islands
    let calendarMs := calendarMs islands
    { busyMs
      agentMs
      calendarMs
      islands := islands.length
      concurrency := if 0 < busyMs then some (agentMs / busyMs) else none
      dutyCycle := if 0 < calendarMs then some (busyMs / calendarMs) else none
      buckets := (byBucket clock islands).insertionSort fun a b => a.bucket ≤ b.bucket }

/-! ## Days of an island -/

variable {clock : Clock}

theorem BusySpanBucket.count_bucket (b : BusySpanBucket) (segment : String × ℚ) :
    (b.count segment).bucket = b.bucket := by
  unfold count
  split <;> rfl

theorem map_count_of_not_mem {segment : String × ℚ} {buckets : List BusySpanBucket}
    (h : segment.1 ∉ buckets.map (·.bucket)) : buckets.map (·.count segment) = buckets := by
  refine (List.map_congr_left fun b hb => ?_).trans (List.map_id _)
  exact if_neg fun heq => h (List.mem_map.mpr ⟨b, hb, heq⟩)

/-- Only one entry is the day's. -/
theorem total_count {segment : String × ℚ} {buckets : List BusySpanBucket} (hkeys : (buckets.map (·.bucket)).Nodup)
    (hmem : segment.1 ∈ buckets.map (·.bucket)) :
    ((buckets.map (·.count segment)).map (·.busyMs)).sum = (buckets.map (·.busyMs)).sum + segment.2 := by
  induction buckets with
  | nil => exact absurd hmem List.not_mem_nil
  | cons b buckets ih =>
    rw [List.map_cons, List.nodup_cons] at hkeys
    rw [List.map_cons, List.map_cons, List.sum_cons, List.map_cons, List.sum_cons]
    by_cases hb : b.bucket = segment.1
    · rw [map_count_of_not_mem (hb ▸ hkeys.1), BusySpanBucket.count, if_pos hb]
      ring
    · have htail : segment.1 ∈ buckets.map (·.bucket) :=
        (List.mem_cons.mp hmem).resolve_left fun heq => hb heq.symm
      rw [ih hkeys.2 htail, BusySpanBucket.count, if_neg hb]
      ring

theorem total_addSegment {buckets : List BusySpanBucket} (hkeys : (buckets.map (·.bucket)).Nodup)
    (segment : String × ℚ) : ((addSegment buckets segment).map (·.bucket)).Nodup ∧
      ((addSegment buckets segment).map (·.busyMs)).sum = (buckets.map (·.busyMs)).sum + segment.2 := by
  have hany : buckets.any (·.bucket = segment.1) = true ↔ segment.1 ∈ buckets.map (·.bucket) := by
    simp only [List.any_eq_true, decide_eq_true_eq, List.mem_map]
  unfold addSegment
  split
  · next hin =>
    refine ⟨?_, total_count hkeys (hany.mp hin)⟩
    have hsame : (buckets.map (·.count segment)).map (·.bucket) = buckets.map (·.bucket) := by
      rw [List.map_map]
      exact List.map_congr_left fun b _ => b.count_bucket segment
    exact hsame ▸ hkeys
  · next hout =>
    rw [List.map_append, List.map_append, List.sum_append]
    refine ⟨List.nodup_append.mpr ⟨hkeys, List.nodup_singleton _, ?_⟩, by simp⟩
    rintro a ha b hb rfl
    obtain rfl : a = segment.1 := List.mem_singleton.mp hb
    exact hout (hany.mpr ha)

theorem total_foldl {buckets : List BusySpanBucket} (hkeys : (buckets.map (·.bucket)).Nodup)
    (all : List (String × ℚ)) : ((all.foldl addSegment buckets).map (·.busyMs)).sum =
      (buckets.map (·.busyMs)).sum + (all.map Prod.snd).sum := by
  induction all generalizing buckets with
  | nil => simp
  | cons segment all ih =>
    obtain ⟨hnext, hsum⟩ := total_addSegment hkeys segment
    rw [List.foldl_cons, ih hnext, hsum, List.map_cons, List.sum_cons]
    ring

/-- What the walk has counted after some steps: the days up to the boundary it has reached. -/
theorem total_segments (hday : ∀ t, t < clock.endOfLocalDay t) (stop : ℚ) (steps : Nat) {start : ℚ} (h : start ≤ stop) :
    ((segments clock stop steps start).map Prod.snd).sum =
      min (clock.endOfLocalDay^[steps] start) stop - start := by
  induction steps generalizing start with
  | zero => simp [segments, min_eq_left h]
  | succ steps ih =>
    have hgrow : ∀ t, t ≤ clock.endOfLocalDay^[steps] t :=
      fun t => Function.id_le_iterate_of_id_le (fun u => (hday u).le) steps t
    rw [segments, Function.iterate_succ_apply]
    split
    · next hlt =>
      simp only [if_pos (hday start), List.map_cons, List.sum_cons, ih (min_le_right _ _)]
      rcases le_total (clock.endOfLocalDay start) stop with hle | hle
      · rw [min_eq_left hle]
        ring
      · rw [min_eq_right hle, min_eq_right (hgrow stop), min_eq_right (hle.trans (hgrow _))]
        ring
    · next hge =>
      obtain rfl : start = stop := le_antisymm h (not_lt.mp hge)
      have hpast := (hday start).le.trans (hgrow (clock.endOfLocalDay start))
      rw [min_eq_right hpast]
      simp

def counted (clock : Clock) (island : Span ℚ) : ℚ :=
  min (clock.endOfLocalDay^[maxBucketSteps] island.start) island.stop - island.start

theorem total_byBucket (hday : ∀ t, t < clock.endOfLocalDay t) (islands : List (Span ℚ)) :
    ((byBucket clock islands).map (·.busyMs)).sum = (islands.map (counted clock)).sum := by
  have hempty : (([] : List BusySpanBucket).map (·.bucket)).Nodup := List.nodup_nil
  rw [byBucket, total_foldl hempty, List.map_nil, List.sum_nil, zero_add]
  induction islands with
  | nil => rfl
  | cons island islands ih =>
    rw [List.flatMap_cons, List.map_append, List.sum_append, ih, total_segments hday _ _ island.lt.le]
    rfl

/-- Every island is counted whole exactly when each has fewer day boundaries inside than the walk
has steps. -/
theorem sum_counted_iff (islands : List (Span ℚ)) : (islands.map (counted clock)).sum = Span.total islands ↔
    ∀ island ∈ islands, island.stop ≤ clock.endOfLocalDay^[maxBucketSteps] island.start := by
  have hle : ∀ island : Span ℚ, counted clock island ≤ island.length :=
    fun island => sub_le_sub_right (min_le_right _ _) _
  have heq : ∀ island : Span ℚ, counted clock island = island.length ↔
      island.stop ≤ clock.endOfLocalDay^[maxBucketSteps] island.start := by
    intro island
    rw [counted, Span.length, sub_left_inj, min_eq_right_iff]
  induction islands with
  | nil => simp [Span.total]
  | cons island islands ih =>
    have hrest : (islands.map (counted clock)).sum ≤ Span.total islands :=
      List.sum_le_sum fun i _ => hle i
    have hfirst := hle island
    rw [List.map_cons, List.sum_cons, Span.total_cons, List.forall_mem_cons, ← heq]
    constructor
    · intro h
      exact ⟨by linarith, ih.mp (by linarith)⟩
    · rintro ⟨h₁, h₂⟩
      rw [h₁, ih.mpr h₂]

/-! ## The whole list -/

noncomputable def onLine (spans : List (Span ℚ)) : List (Span ℝ) := spans.map (Span.map Rat.castOrderEmbedding)

theorem total_onLine (spans : List (Span ℚ)) : Span.total (onLine spans) = ((Span.total spans : ℚ) : ℝ) := by
  induction spans with
  | nil => simp [onLine, Span.total]
  | cons s spans ih =>
    have hlength : (s.map Rat.castOrderEmbedding : Span ℝ).length = ((s.length : ℚ) : ℝ) := by
      simp [Span.length, Span.map]
    rw [onLine, List.map_cons, Span.total_cons, Span.total_cons, Rat.cast_add, hlength, ← ih, onLine]

theorem computeBusySpan_eq (clock : Clock) (intervals : List BusyInterval) :
    let spans := usable clock intervals
    let r := computeBusySpan clock intervals
    r.busyMs = Span.total (Span.islands spans) ∧ r.agentMs = Span.total spans ∧
      r.calendarMs = calendarMs (Span.islands spans) ∧ r.islands = (Span.islands spans).length ∧
      (r.buckets.map (·.busyMs)).sum = ((byBucket clock (Span.islands spans)).map (·.busyMs)).sum := by
  intro spans r
  by_cases hempty : spans = []
  · have hr : r = ⟨0, Span.total spans, 0, 0, none, none, []⟩ := if_pos hempty
    rw [hr, hempty]
    exact ⟨rfl, rfl, rfl, rfl, rfl⟩
  · have hr : r = _ := if_neg hempty
    rw [hr]
    exact ⟨rfl, rfl, rfl, rfl, ((List.perm_insertionSort _ _).map _).sum_eq⟩

theorem volume_covered (spans : List (Span ℚ)) : MeasureTheory.volume (Span.covered (onLine spans)) =
    ENNReal.ofReal ((Span.total (Span.islands spans) : ℚ) : ℝ) := by
  have hislands : Span.islands (onLine spans) = onLine (Span.islands spans) := Span.islands_map _ _
  rw [← Span.covered_islands, (Span.apart_islands _).volume, hislands, total_onLine]

theorem total_islands_perm {spans spans' : List (Span ℚ)} (h : spans.Perm spans') :
    Span.total (Span.islands spans) = Span.total (Span.islands spans') := by
  have hcov : Span.covered (onLine spans) = Span.covered (onLine spans') :=
    Span.covered_congr fun s => (h.map _).mem_iff
  have hvol := (volume_covered spans).symm.trans (hcov ▸ volume_covered spans')
  have hreal := (ENNReal.ofReal_eq_ofReal_iff (Rat.cast_nonneg.mpr (Span.total_nonneg _))
    (Rat.cast_nonneg.mpr (Span.total_nonneg _))).mp hvol
  exact Rat.cast_injective hreal

theorem calendarMs_spec {spans : List (Span ℚ)} (h : spans ≠ []) :
    Span.total (Span.islands spans) ≤ calendarMs (Span.islands spans) ∧
      ∃ first last, IsLeast (Span.covered spans) first ∧ IsGreatest (Span.covered spans) last ∧
        calendarMs (Span.islands spans) = last - first := by
  have hapart := Span.apart_islands spans
  have hcov := Span.covered_islands spans
  cases hislands : Span.islands spans with
  | nil =>
    obtain ⟨s, hs⟩ := List.exists_mem_of_ne_nil spans h
    rw [hislands, Span.covered_nil] at hcov
    exact absurd (hcov.symm.subset ⟨s, hs, Set.left_mem_Icc.mpr s.lt.le⟩) (Set.notMem_empty _)
  | cons first rest =>
    rw [hislands] at hapart hcov
    obtain ⟨hleast, hgreatest⟩ := hapart.bounds
    rw [← hcov]
    exact ⟨hapart.total_le, _, _, hleast, hgreatest, rfl⟩

/-- A zone whose days are one millisecond long. -/
def shortDays : Clock := ⟨fun _ => none, fun t => t + 1, fun t => toString ⌊t⌋⟩

theorem shortDays_iterate (n : Nat) (t : ℚ) : shortDays.endOfLocalDay^[n] t = t + n := by
  show (fun t : ℚ => t + 1)^[n] t = t + n
  rw [add_right_iterate, nsmul_eq_mul, mul_one]

def between (start stop : ℚ) : BusyInterval := ⟨.number (some start), .number (some stop)⟩

theorem islands_between (start stop : ℚ) (h : start < stop) :
    Span.islands (usable shortDays [between start stop]) = [⟨start, stop, h⟩] := by
  have husable : usable shortDays [between start stop] = [⟨start, stop, h⟩] := by
    simp [usable, usableSpan, between, toMs, h]
  rw [husable]
  rfl

end Haive.Stats

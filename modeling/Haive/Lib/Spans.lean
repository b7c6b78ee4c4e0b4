import Mathlib

/-!
# Unions of intervals

Closed intervals of positive length, and the sweep that merges a list of them, sorted by their
starts, into islands. The islands are apart from one another (`Apart`), which makes each a maximal
interval of the union (`Apart.maximal`) and the measure of the union the sum of their lengths
(`Apart.volume`).
-/

namespace Lib

/-- An interval of positive length. -/
@[ext] structure Span (α : Type*) [LinearOrder α] where
  start : α
  stop : α
  lt : start < stop

namespace Span

section Order

variable {α β : Type*} [LinearOrder α] [LinearOrder β]

def set (s : Span α) : Set α := Set.Icc s.start s.stop

/-- The points of the spans. -/
def covered (l : List (Span α)) : Set α := {x | ∃ s ∈ l, x ∈ s.set}

theorem covered_nil : covered ([] : List (Span α)) = ∅ := by simp [covered]

theorem covered_cons (s : Span α) (l : List (Span α)) : covered (s :: l) = s.set ∪ covered l := by
  ext x
  simp [covered]

theorem covered_congr {l l' : List (Span α)} (h : ∀ s, s ∈ l ↔ s ∈ l') : covered l = covered l' := by
  ext x
  exact exists_congr fun s => and_congr_left fun _ => h s

def map (f : α ↪o β) (s : Span α) : Span β := ⟨f s.start, f s.stop, f.lt_iff_lt.mpr s.lt⟩

/-! ## The sweep -/

/-- `cur` up to the later of the two ends. -/
def extend (cur iv : Span α) : Span α :=
  if h : cur.stop < iv.stop then ⟨cur.start, iv.stop, cur.lt.trans h⟩ else cur

theorem extend_start (cur iv : Span α) : (cur.extend iv).start = cur.start := by
  unfold extend
  split <;> rfl

theorem extend_stop (cur iv : Span α) : (cur.extend iv).stop = max cur.stop iv.stop := by
  unfold extend
  split
  · next h => exact (max_eq_right h.le).symm
  · next h => exact (max_eq_left (not_lt.mp h)).symm

theorem extend_set {cur iv : Span α} (h₁ : cur.start ≤ iv.start) (h₂ : iv.start ≤ cur.stop) :
    (cur.extend iv).set = cur.set ∪ iv.set := by
  rw [set, extend_start, extend_stop, set, set, Set.Icc_union_Icc' h₂ (h₁.trans iv.lt.le), min_eq_left h₁]

def sweep (cur : Span α) : List (Span α) → List (Span α)
  | [] => [cur]
  | iv :: rest => if iv.start ≤ cur.stop then sweep (cur.extend iv) rest else cur :: sweep iv rest

def islands (l : List (Span α)) : List (Span α) :=
  match l.insertionSort fun a b => a.start ≤ b.start with
  | [] => []
  | first :: rest => sweep first rest

/-- One after the other, with a gap between. -/
def Apart (l : List (Span α)) : Prop := l.Pairwise fun a b => a.stop < b.start

/-- In the order of their starts. -/
def Ascending (l : List (Span α)) : Prop := l.Pairwise fun a b => a.start ≤ b.start

theorem ascending_extend {cur iv : Span α} {rest : List (Span α)} (h : Ascending (cur :: iv :: rest)) :
    Ascending (cur.extend iv :: rest) := by
  obtain ⟨hcur, hrest⟩ := List.pairwise_cons.mp h
  refine List.pairwise_cons.mpr ⟨fun s hs => ?_, (List.pairwise_cons.mp hrest).2⟩
  rw [extend_start]
  exact hcur s (List.mem_cons_of_mem _ hs)

theorem start_le_of_mem_sweep {cur : Span α} {l : List (Span α)} (h : Ascending (cur :: l)) :
    ∀ s ∈ sweep cur l, cur.start ≤ s.start := by
  induction l generalizing cur with
  | nil =>
    intro s hs
    rw [List.mem_singleton.mp hs]
  | cons iv rest ih =>
    intro s hs
    rw [sweep] at hs
    split at hs
    · exact (extend_start cur iv) ▸ ih (ascending_extend h) s hs
    · obtain ⟨hcur, hrest⟩ := List.pairwise_cons.mp h
      rcases List.mem_cons.mp hs with rfl | hs
      · exact le_rfl
      · exact (hcur iv List.mem_cons_self).trans (ih hrest s hs)

theorem apart_sweep {cur : Span α} {l : List (Span α)} (h : Ascending (cur :: l)) : Apart (sweep cur l) := by
  induction l generalizing cur with
  | nil => exact List.pairwise_singleton _ _
  | cons iv rest ih =>
    rw [sweep]
    split
    · exact ih (ascending_extend h)
    · next hgap =>
      have hrest := (List.pairwise_cons.mp h).2
      refine List.pairwise_cons.mpr ⟨fun s hs => ?_, ih hrest⟩
      exact (not_le.mp hgap).trans_le (start_le_of_mem_sweep hrest s hs)

theorem covered_sweep {cur : Span α} {l : List (Span α)} (h : Ascending (cur :: l)) :
    covered (sweep cur l) = covered (cur :: l) := by
  induction l generalizing cur with
  | nil => rfl
  | cons iv rest ih =>
    have hle := (List.pairwise_cons.mp h).1 iv List.mem_cons_self
    rw [sweep]
    split
    · next htouch =>
      rw [ih (ascending_extend h), covered_cons, extend_set hle htouch, covered_cons, covered_cons,
        Set.union_assoc]
    · rw [covered_cons, ih (List.pairwise_cons.mp h).2, covered_cons cur]

theorem ascending_insertionSort (l : List (Span α)) :
    Ascending (l.insertionSort fun a b => a.start ≤ b.start) := by
  have : Std.Total fun a b : Span α => a.start ≤ b.start := ⟨fun a b => le_total _ _⟩
  have : IsTrans (Span α) fun a b => a.start ≤ b.start := ⟨fun a b c => le_trans⟩
  exact List.pairwise_insertionSort _ _

theorem apart_islands (l : List (Span α)) : Apart (islands l) := by
  have hsorted := ascending_insertionSort l
  unfold islands
  split
  · exact List.Pairwise.nil
  · next heq => exact apart_sweep (heq ▸ hsorted)

theorem covered_islands (l : List (Span α)) : covered (islands l) = covered l := by
  have hsorted := ascending_insertionSort l
  have hmem : covered (l.insertionSort fun a b => a.start ≤ b.start) = covered l :=
    covered_congr fun s => (List.perm_insertionSort _ l).mem_iff
  rw [← hmem]
  unfold islands
  split
  · next heq => rw [heq]
  · next heq =>
    rw [covered_sweep (heq ▸ hsorted), heq]

theorem extend_map (f : α ↪o β) (cur iv : Span α) : (cur.map f).extend (iv.map f) = (cur.extend iv).map f := by
  ext
  · exact (extend_start _ _).trans (congrArg f (extend_start cur iv)).symm
  · calc ((cur.map f).extend (iv.map f)).stop
        = max (f cur.stop) (f iv.stop) := extend_stop _ _
      _ = f (max cur.stop iv.stop) := (f.monotone.map_max).symm
      _ = f (cur.extend iv).stop := congrArg f (extend_stop cur iv).symm

theorem sweep_map (f : α ↪o β) (cur : Span α) (l : List (Span α)) :
    sweep (cur.map f) (l.map (map f)) = (sweep cur l).map (map f) := by
  induction l generalizing cur with
  | nil => rfl
  | cons iv rest ih =>
    have htouch : (iv.map f).start ≤ (cur.map f).stop ↔ iv.start ≤ cur.stop := f.le_iff_le
    rw [List.map_cons, sweep, sweep, extend_map, ih, ih, if_congr htouch rfl rfl]
    split <;> rfl

theorem islands_map (f : α ↪o β) (l : List (Span α)) : islands (l.map (map f)) = (islands l).map (map f) := by
  have hsort := List.map_insertionSort (f := map f) (r := fun a b => a.start ≤ b.start)
    (s := fun a b => a.start ≤ b.start) l fun a _ b _ => f.le_iff_le.symm
  rw [islands, ← hsort, islands]
  cases l.insertionSort fun a b => a.start ≤ b.start with
  | nil => rfl
  | cons first rest => exact sweep_map f first rest

/-! ## What is apart -/

theorem Apart.cases {l : List (Span α)} (h : Apart l) {s t : Span α} (hs : s ∈ l) (ht : t ∈ l) :
    t = s ∨ t.stop < s.start ∨ s.stop < t.start := by
  by_cases hne : t = s
  · exact .inl hne
  · have : Std.Symm fun a b : Span α => a.stop < b.start ∨ b.stop < a.start := ⟨fun _ _ => Or.symm⟩
    have hboth : l.Pairwise fun a b => a.stop < b.start ∨ b.stop < a.start := h.imp Or.inl
    exact .inr (hboth.forall ht hs hne)

theorem exists_room_behind (s : Span α) (l : List (Span α)) {y : α} (hy : s.stop < y) :
    ∃ m, s.stop < m ∧ m ≤ y ∧ ∀ t ∈ l, s.stop < t.start → m ≤ t.start := by
  induction l with
  | nil => exact ⟨y, hy, le_rfl, fun _ h => absurd h List.not_mem_nil⟩
  | cons t l ih =>
    obtain ⟨m, hm, hmy, hall⟩ := ih
    by_cases ht : s.stop < t.start
    · refine ⟨min m t.start, lt_min hm ht, (min_le_left _ _).trans hmy, fun u hu hlt => ?_⟩
      rcases List.mem_cons.mp hu with rfl | hu
      · exact min_le_right _ _
      · exact (min_le_left _ _).trans (hall u hu hlt)
    · refine ⟨m, hm, hmy, fun u hu hlt => ?_⟩
      rcases List.mem_cons.mp hu with rfl | hu
      · exact absurd hlt ht
      · exact hall u hu hlt

theorem exists_room_before (s : Span α) (l : List (Span α)) {y : α} (hy : y < s.start) :
    ∃ m, m < s.start ∧ y ≤ m ∧ ∀ t ∈ l, t.stop < s.start → t.stop ≤ m := by
  induction l with
  | nil => exact ⟨y, hy, le_rfl, fun _ h => absurd h List.not_mem_nil⟩
  | cons t l ih =>
    obtain ⟨m, hm, hmy, hall⟩ := ih
    by_cases ht : t.stop < s.start
    · refine ⟨max m t.stop, max_lt hm ht, hmy.trans (le_max_left _ _), fun u hu hlt => ?_⟩
      rcases List.mem_cons.mp hu with rfl | hu
      · exact le_max_right _ _
      · exact (hall u hu hlt).trans (le_max_left _ _)
    · refine ⟨m, hm, hmy, fun u hu hlt => ?_⟩
      rcases List.mem_cons.mp hu with rfl | hu
      · exact absurd hlt ht
      · exact hall u hu hlt

/-- No larger interval lies in the union. -/
theorem Apart.maximal [DenselyOrdered α] {l : List (Span α)} (h : Apart l) {s : Span α} (hs : s ∈ l)
    {C : Set α} (hC : C.OrdConnected) (hsub : s.set ⊆ C) (hcov : C ⊆ covered l) : C = s.set := by
  refine Set.Subset.antisymm (fun y hy => ?_) hsub
  have hstart : s.start ∈ C := hsub (Set.left_mem_Icc.mpr s.lt.le)
  have hstop : s.stop ∈ C := hsub (Set.right_mem_Icc.mpr s.lt.le)
  by_contra hout
  rcases not_and_or.mp hout with hlt | hgt
  · obtain ⟨m, hm, hmy, hall⟩ := exists_room_before s l (not_le.mp hlt)
    obtain ⟨z, hmz, hzs⟩ := exists_between hm
    obtain ⟨t, ht, hz⟩ := hcov (hC.out hy hstart ⟨hmy.trans hmz.le, hzs.le⟩)
    rcases h.cases hs ht with rfl | hbefore | hbehind
    · exact absurd hz.1 (not_le.mpr hzs)
    · exact absurd (hz.2.trans (hall t ht hbefore)) (not_le.mpr hmz)
    · exact absurd (hz.1.trans hzs.le) (not_le.mpr (s.lt.trans hbehind))
  · obtain ⟨m, hm, hmy, hall⟩ := exists_room_behind s l (not_le.mp hgt)
    obtain ⟨z, hsz, hzm⟩ := exists_between hm
    obtain ⟨t, ht, hz⟩ := hcov (hC.out hstop hy ⟨hsz.le, hzm.le.trans hmy⟩)
    rcases h.cases hs ht with rfl | hbefore | hbehind
    · exact absurd hz.2 (not_le.mpr hsz)
    · exact absurd (hsz.le.trans hz.2) (not_le.mpr (hbefore.trans s.lt))
    · exact absurd ((hall t ht hbehind).trans hz.1) (not_le.mpr hzm)

theorem Apart.bounds {s : Span α} {l : List (Span α)} (h : Apart (s :: l)) :
    IsLeast (covered (s :: l)) s.start ∧
      IsGreatest (covered (s :: l)) ((s :: l).getLast (List.cons_ne_nil s l)).stop := by
  induction l generalizing s with
  | nil =>
    rw [covered_cons, covered_nil, Set.union_empty]
    exact ⟨isLeast_Icc s.lt.le, isGreatest_Icc s.lt.le⟩
  | cons t l ih =>
    obtain ⟨hs, ht⟩ := List.pairwise_cons.mp h
    obtain ⟨hleast, hgreatest⟩ := ih ht
    have hgap := hs t List.mem_cons_self
    have htop : t.start ≤ ((t :: l).getLast (List.cons_ne_nil t l)).stop := hgreatest.2 hleast.1
    rw [covered_cons, List.getLast_cons (List.cons_ne_nil t l)]
    refine ⟨⟨.inl (Set.left_mem_Icc.mpr s.lt.le), ?_⟩, .inr hgreatest.1, ?_⟩
    · rintro x (hx | hx)
      · exact hx.1
      · exact (s.lt.trans hgap).le.trans (hleast.2 hx)
    · rintro x (hx | hx)
      · exact hx.2.trans (hgap.le.trans htop)
      · exact hgreatest.2 hx

theorem Apart.disjoint {l : List (Span α)} (h : Apart l) : l.Pairwise fun a b => Disjoint a.set b.set :=
  h.imp fun hab => Set.disjoint_left.mpr fun _ ha hb => absurd (hb.1.trans ha.2) (not_le.mpr hab)

end Order

/-! ## Length -/

section Length

variable {α : Type*} [Field α] [LinearOrder α]

def length (s : Span α) : α := s.stop - s.start

def total (l : List (Span α)) : α := (l.map length).sum

theorem total_cons (s : Span α) (l : List (Span α)) : total (s :: l) = s.length + total l := by
  rw [total, List.map_cons, List.sum_cons, total]

theorem total_perm {l l' : List (Span α)} (h : l.Perm l') : total l = total l' := (h.map length).sum_eq

variable [IsStrictOrderedRing α]

theorem length_pos (s : Span α) : 0 < s.length := sub_pos.mpr s.lt

theorem total_nonneg (l : List (Span α)) : 0 ≤ total l :=
  List.sum_nonneg fun _ hx => by
    obtain ⟨s, -, rfl⟩ := List.mem_map.mp hx
    exact s.length_pos.le

theorem length_extend_le {cur iv : Span α} (h : iv.start ≤ cur.stop) :
    (cur.extend iv).length ≤ cur.length + iv.length := by
  have hiv := iv.length_pos
  have hcur := cur.length_pos
  rw [length] at hiv hcur
  rw [length, extend_start, extend_stop, length, length]
  rcases le_total cur.stop iv.stop with hle | hle
  · rw [max_eq_right hle]
    linarith
  · rw [max_eq_left hle]
    linarith

/-- Merging counts nothing twice. -/
theorem total_sweep_le (cur : Span α) (l : List (Span α)) : total (sweep cur l) ≤ total (cur :: l) := by
  induction l generalizing cur with
  | nil => exact le_rfl
  | cons iv rest ih =>
    rw [sweep]
    split
    · next htouch =>
      have hle := ih (cur.extend iv)
      have hext := length_extend_le htouch
      rw [total_cons] at hle
      rw [total_cons, total_cons]
      linarith
    · have hle := ih iv
      rw [total_cons, total_cons cur]
      linarith

theorem total_islands_le (l : List (Span α)) : total (islands l) ≤ total l := by
  rw [← total_perm (List.perm_insertionSort (fun a b => a.start ≤ b.start) l)]
  unfold islands
  split
  · next heq =>
    rw [heq]
  · next heq =>
    rw [heq]
    exact total_sweep_le _ _

/-- What is apart fits between its first start and its last stop. -/
theorem Apart.total_le {s : Span α} {l : List (Span α)} (h : Apart (s :: l)) :
    total (s :: l) ≤ ((s :: l).getLast (List.cons_ne_nil s l)).stop - s.start := by
  induction l generalizing s with
  | nil =>
    rw [total_cons, total, List.map_nil, List.sum_nil, add_zero]
    rfl
  | cons t l ih =>
    obtain ⟨hs, ht⟩ := List.pairwise_cons.mp h
    have hgap := hs t List.mem_cons_self
    have hrest := ih ht
    rw [total_cons, List.getLast_cons (List.cons_ne_nil t l), length]
    linarith

end Length

/-! ## Measure -/

section Measure

open MeasureTheory

theorem measurableSet_covered (l : List (Span ℝ)) : MeasurableSet (covered l) := by
  induction l with
  | nil => exact covered_nil (α := ℝ) ▸ MeasurableSet.empty
  | cons s l ih => exact covered_cons s l ▸ measurableSet_Icc.union ih

/-- The measure of what is apart is its total length. -/
theorem Apart.volume {l : List (Span ℝ)} (h : Apart l) : volume (covered l) = ENNReal.ofReal (total l) := by
  induction l with
  | nil => simp [covered_nil, total]
  | cons s l ih =>
    obtain ⟨hs, hl⟩ := List.pairwise_cons.mp h
    have hdisjoint : Disjoint s.set (covered l) := by
      refine Set.disjoint_left.mpr fun x hx hcov => ?_
      obtain ⟨t, ht, hxt⟩ := hcov
      exact absurd (hxt.1.trans hx.2) (not_le.mpr (hs t ht))
    rw [covered_cons, measure_union hdisjoint (measurableSet_covered l), ih hl, total_cons,
      ENNReal.ofReal_add s.length_pos.le (total_nonneg l), set, Real.volume_Icc, length]

end Measure

end Span

end Lib

import Haive.Plan.BuildOrder
import Haive.Lib.FirstPath

/-!
# The report of dependency cycles

`findDependencyCycles` is one depth-first walk. Each loop that it reports is a simple cycle,
and no two have the same members. But it comes to each node once, by its first path, so it
reports the loops that close a first path and no others: a node whose cycles all run through
nodes that were done before is in no report (`cross_cycle_unreported`).
-/

namespace Haive

open Lib

def DependsOnAmong (nodes : PlanNodes) (edges : List PlanNodeEdgeRow) (x y : Uuid) : Prop :=
  x ∈ nodes.keys ∧ y ∈ nodes.keys ∧ ∃ e ∈ edges, e.kind = .dependsOn ∧ e.fromNodeId = x ∧ e.toNodeId = y

/-- A simple cycle, from one of its nodes. -/
structure IsLoop (R : Uuid → Uuid → Prop) (loop : List Uuid) : Prop where
  nodup : loop.Nodup
  chain : loop.IsChain R
  closes : ∃ first last, loop.head? = some first ∧ loop.getLast? = some last ∧ R last first

structure CycleReport (R : Uuid → Uuid → Prop) (cycles : List (List Uuid)) : Prop where
  sound : ∀ loop ∈ cycles, IsLoop R loop
  distinct : cycles.Pairwise fun loop loop' => ¬ ∀ x, x ∈ loop ↔ x ∈ loop'
  complete : ∀ v, Relation.TransGen R v v → ∃ loop ∈ cycles, v ∈ loop

/-- The node is on a loop that closes a first path: the path leads to a node that depends on a node of
the path, at or before this one. -/
def OnFirstLoop (ids : List Uuid) (dependsOn : Uuid → List Uuid) (x : Uuid) : Prop :=
  ∃ before t after v, FirstPath ids dependsOn (before ++ t :: after) v ∧ t ∈ dependsOn v ∧ x ∈ t :: after

variable {nodes : PlanNodes} {edges : List PlanNodeEdgeRow} {ids path done rest : List Uuid}
  {dependsOn : Uuid → List Uuid} {s s' : CycleSearch} {id t v x y : Uuid} {loop loop' : List Uuid}

theorem among_of_mem (h : y ∈ indexDependsOn nodes edges x) : DependsOnAmong nodes edges x y := by
  obtain ⟨e, he, hkind, hfrom, hto, -, hx, hy⟩ := mem_indexDependsOn.mp h
  exact ⟨hx, hy, e, he, hkind, hfrom, hto⟩

/-! ## Keys -/

/-- The key of `CycleSearch.report`. -/
def loopKey (loop : List Uuid) : List Uuid := loop.mergeSort fun a b => a.text ≤ b.text

theorem loopKey_eq (h : loop.Nodup) (h' : loop'.Nodup) (hmem : ∀ x, x ∈ loop ↔ x ∈ loop') :
    loopKey loop = loopKey loop' := by
  have hsorted : ∀ l : List Uuid, (loopKey l).Pairwise fun a b => a.text ≤ b.text := by
    intro l
    have htrans : ∀ a b c : Uuid, decide (a.text ≤ b.text) = true → decide (b.text ≤ c.text) = true →
        decide (a.text ≤ c.text) = true := by
      intro a b c hab hbc
      rw [decide_eq_true_eq] at hab hbc ⊢
      exact String.le_trans hab hbc
    have htotal : ∀ a b : Uuid, (decide (a.text ≤ b.text) || decide (b.text ≤ a.text)) = true := by
      intro a b
      rw [Bool.or_eq_true, decide_eq_true_eq, decide_eq_true_eq]
      exact String.le_total a.text b.text
    exact (List.pairwise_mergeSort htrans htotal l).imp fun hab => of_decide_eq_true hab
  have hperm : loop.Perm loop' := (List.perm_ext_iff_of_nodup h h').mpr hmem
  have hkeys : (loopKey loop).Perm (loopKey loop') :=
    (List.mergeSort_perm _ _).trans (hperm.trans (List.mergeSort_perm _ _).symm)
  exact hkeys.eq_of_pairwise (fun a b _ _ hab hba => Uuid.ext_text (String.le_antisymm hab hba)) (hsorted _) (hsorted _)

theorem mem_loopKey : x ∈ loopKey loop ↔ x ∈ loop := (List.mergeSort_perm _ _).mem_iff

theorem dropWhile_path {before after : List Uuid} (h : t ∉ before) :
    (before ++ t :: after).dropWhile (· ≠ t) = t :: after := by
  rw [List.dropWhile_append_of_pos fun x hx => by
    rw [decide_eq_true_eq]
    exact fun heq => h (heq ▸ hx)]
  exact List.dropWhile_cons_of_neg (by simp)

/-! ## The state of the search -/

/-- The loop from `t` to the end of the path is reported, from some node of it. -/
def CycleSearch.Reports (s : CycleSearch) (path : List Uuid) (t : Uuid) : Prop :=
  ∃ loop ∈ s.cycles, loopKey loop = loopKey (path.dropWhile (· ≠ t))

/-- The search stands at the end of `path`. -/
structure CycleSearch.Fits (ids : List Uuid) (dependsOn : Uuid → List Uuid) (path : List Uuid) (s : CycleSearch) :
    Prop where
  justified : Justified ids dependsOn path (· ∈ s.closed)
  known : ∀ x ∈ path, x ∈ ids
  opened : ∀ x ∈ s.opened, x ∈ s.closed ∨ x ∈ path
  closed : ClosedOff dependsOn path (· ∈ s.closed)
  keys : ∀ k, k ∈ s.seenCycle ↔ ∃ loop ∈ s.cycles, loopKey loop = k
  distinct : s.cycles.Pairwise fun loop loop' => loopKey loop ≠ loopKey loop'
  sound : ∀ loop ∈ s.cycles, ∃ before t after v, FirstPath ids dependsOn (before ++ t :: after) v ∧
    t ∈ dependsOn v ∧ loop = t :: after
  complete : ∀ v ∈ s.closed, dependsOn v ≠ [] → ∃ path, FirstPath ids dependsOn path v ∧
    ∀ t ∈ dependsOn v, t ∈ path → s.Reports path t

/-- What a search has found, it keeps. -/
structure CycleSearch.Grows (s s' : CycleSearch) : Prop where
  closed : ∀ x ∈ s.closed, x ∈ s'.closed
  cycles : ∀ loop ∈ s.cycles, loop ∈ s'.cycles

theorem CycleSearch.Grows.refl (s : CycleSearch) : s.Grows s := ⟨fun _ h => h, fun _ h => h⟩

theorem CycleSearch.Grows.trans {s₁ s₂ s₃ : CycleSearch} (h : s₁.Grows s₂) (h' : s₂.Grows s₃) : s₁.Grows s₃ :=
  ⟨fun x hx => h'.closed x (h.closed x hx), fun l hl => h'.cycles l (h.cycles l hl)⟩

theorem CycleSearch.Reports.grows (h : s.Reports path t) (hgrows : s.Grows s') : s'.Reports path t := by
  obtain ⟨loop, hloop, hkey⟩ := h
  exact ⟨loop, hgrows.cycles loop hloop, hkey⟩

theorem report_eq (s : CycleSearch) (loop : List Uuid) :
    s.report loop = if s.seenCycle.contains (loopKey loop) then s
      else { s with seenCycle := loopKey loop :: s.seenCycle, cycles := s.cycles ++ [loop] } := rfl

theorem report_grows (s : CycleSearch) (loop : List Uuid) : s.Grows (s.report loop) := by
  rw [report_eq]
  split
  · exact .refl s
  · exact ⟨fun _ hx => hx, fun l hl => List.mem_append_left _ hl⟩

/-- A target on the path. -/
theorem CycleSearch.Fits.report (h : s.Fits ids dependsOn path) (hends : path.getLast? = some v) (ht : t ∈ dependsOn v)
    (hmem : t ∈ path) :
    (s.report (path.dropWhile (· ≠ t))).Fits ids dependsOn path ∧
      (s.report (path.dropWhile (· ≠ t))).Reports path t := by
  have hfirst := h.justified.firstPath hends
  have hgrows := report_grows s (path.dropWhile (· ≠ t))
  have hcomplete : ∀ v ∈ s.closed, dependsOn v ≠ [] → ∃ path', FirstPath ids dependsOn path' v ∧
      ∀ t' ∈ dependsOn v, t' ∈ path' → (s.report (path.dropWhile (· ≠ t))).Reports path' t' := by
    intro v hv hne
    obtain ⟨path', hpath, hreports⟩ := h.complete v hv hne
    exact ⟨path', hpath, fun t' ht' hin => (hreports t' ht' hin).grows hgrows⟩
  rw [report_eq] at hcomplete ⊢
  rcases Decidable.em (s.seenCycle.contains (loopKey (path.dropWhile (· ≠ t))) = true) with hseen | hnew
  · rw [if_pos hseen]
    obtain ⟨loop, hloop, hkey⟩ := (h.keys _).mp (List.contains_iff_mem.mp hseen)
    exact ⟨h, loop, hloop, hkey⟩
  · rw [if_neg hnew] at hcomplete ⊢
    refine ⟨⟨h.justified, h.known, h.opened, h.closed, fun k => ?_, ?_, fun loop hloop => ?_, hcomplete⟩,
      _, List.mem_append_right _ List.mem_cons_self, rfl⟩
    · rw [List.mem_cons, h.keys]
      constructor
      · rintro (rfl | ⟨loop, hloop, rfl⟩)
        · exact ⟨_, List.mem_append_right _ List.mem_cons_self, rfl⟩
        · exact ⟨loop, List.mem_append_left _ hloop, rfl⟩
      · rintro ⟨loop, hloop, rfl⟩
        rcases List.mem_append.mp hloop with hloop | hloop
        · exact .inr ⟨loop, hloop, rfl⟩
        · exact .inl (congrArg loopKey (List.mem_singleton.mp hloop))
    · refine List.pairwise_append.mpr ⟨h.distinct, List.pairwise_singleton _ _, fun loop hloop loop' hloop' hkey => ?_⟩
      rw [List.mem_singleton.mp hloop'] at hkey
      exact hnew (List.contains_iff_mem.mpr ((h.keys _).mpr ⟨loop, hloop, hkey⟩))
    · rcases List.mem_append.mp hloop with hloop | hloop
      · exact h.sound loop hloop
      · rw [List.mem_singleton.mp hloop]
        obtain ⟨before, after, rfl⟩ := List.append_of_mem hmem
        have hout : t ∉ before := fun hin =>
          (List.nodup_append.mp h.justified.nodup).2.2 t hin t List.mem_cons_self rfl
        exact ⟨before, t, after, v, hfirst, ht, dropWhile_path hout⟩

/-! ## The walk -/

/-- What the search leaves of a node: it is done, and the search stands where it came from. -/
def Explores (ids : List Uuid) (dependsOn : Uuid → List Uuid) (fuel : Nat) : Prop :=
  ∀ (front : List Uuid) (id : Uuid) (s : CycleSearch), s.Fits ids dependsOn (front ++ [id]) →
    ids.length < fuel + (front ++ [id]).length →
    (exploreCycles dependsOn fuel (front ++ [id]) id s).Fits ids dependsOn front ∧
      s.Grows (exploreCycles dependsOn fuel (front ++ [id]) id s) ∧
      id ∈ (exploreCycles dependsOn fuel (front ++ [id]) id s).closed

/-- What the search knows of a target that it has passed. -/
def CycleSearch.Passed (s : CycleSearch) (path : List Uuid) (t : Uuid) : Prop :=
  (t ∈ path ∨ t ∈ s.closed) ∧ (t ∈ path → s.Reports path t)

theorem CycleSearch.Passed.grows (h : s.Passed path t) (hgrows : s.Grows s') : s'.Passed path t :=
  ⟨h.1.imp_right (hgrows.closed t), fun ht => (h.2 ht).grows hgrows⟩

/-- The turn of the loop for one target. -/
def nextTarget (dependsOn : Uuid → List Uuid) (fuel : Nat) (path : List Uuid) (s : CycleSearch) (target : Uuid) :
    CycleSearch :=
  if path.contains target then s.report (path.dropWhile (· ≠ target))
  else if s.closed.contains target || (dependsOn target).isEmpty then
    if s.has target then s else s.close target
  else exploreCycles dependsOn fuel (path ++ [target]) target { s with opened := target :: s.opened }

theorem exploreCycles_eq (fuel : Nat) (path : List Uuid) (id : Uuid) (s : CycleSearch) :
    exploreCycles dependsOn (fuel + 1) path id s =
      ((dependsOn id).foldl (nextTarget dependsOn fuel path) s).close id := rfl

/-- A node without targets is done at once. -/
theorem CycleSearch.Fits.close (h : s.Fits ids dependsOn path) (hnew : t ∉ path) (hleaf : dependsOn t = []) :
    (s.close t).Fits ids dependsOn path where
  justified := h.justified.mono (fun _ hx => List.mem_cons_of_mem _ hx) fun x hx hin =>
    (List.mem_cons.mp hin).elim (fun heq => hnew (heq ▸ hx)) (h.justified.apart x hx)
  known := h.known
  opened := fun x hx => (h.opened x hx).imp_left (List.mem_cons_of_mem _)
  closed := fun a ha b hb => by
    rcases List.mem_cons.mp ha with rfl | ha
    · exact absurd hb (hleaf ▸ List.not_mem_nil)
    · exact (h.closed a ha b hb).imp_left (List.mem_cons_of_mem _)
  keys := h.keys
  distinct := h.distinct
  sound := h.sound
  complete := fun v hv hne => by
    rcases List.mem_cons.mp hv with rfl | hv
    · exact absurd hleaf hne
    · exact h.complete v hv hne

section Walk

variable {fuel : Nat} {front : List Uuid} (hknown : ∀ x, ∀ y ∈ dependsOn x, y ∈ ids)
include hknown

theorem nextTarget_fits (ih : Explores ids dependsOn fuel) (h : s.Fits ids dependsOn (front ++ [id]))
    (hsplit : dependsOn id = done ++ t :: rest) (hout : t ∉ done)
    (hdone : ∀ x ∈ done, s.Passed (front ++ [id]) x) (hfuel : ids.length < fuel + 1 + (front ++ [id]).length) :
    (nextTarget dependsOn fuel (front ++ [id]) s t).Fits ids dependsOn (front ++ [id]) ∧
      s.Grows (nextTarget dependsOn fuel (front ++ [id]) s t) ∧
      (nextTarget dependsOn fuel (front ++ [id]) s t).Passed (front ++ [id]) t := by
  have hends : (front ++ [id]).getLast? = some id := List.getLast?_concat
  have ht : t ∈ dependsOn id := hsplit ▸ List.mem_append_right _ List.mem_cons_self
  unfold nextTarget
  split
  · next hin =>
    have hmem := List.contains_iff_mem.mp hin
    obtain ⟨hfits, hreports⟩ := h.report hends ht hmem
    exact ⟨hfits, report_grows s _, .inl hmem, fun _ => hreports⟩
  · next hoff =>
    have hnew : t ∉ front ++ [id] := fun hin => hoff (List.contains_iff_mem.mpr hin)
    split
    · next hdone =>
      split
      · next hhas =>
        have hclosed : t ∈ s.closed := by
          rw [CycleSearch.has, Bool.or_eq_true, List.contains_iff_mem, List.contains_iff_mem] at hhas
          exact hhas.elim (fun hopened => (h.opened t hopened).resolve_right hnew) fun hc => hc
        exact ⟨h, .refl s, .inr hclosed, fun hin => absurd hin hnew⟩
      · next hhas =>
        have hleaf : dependsOn t = [] := by
          rw [Bool.or_eq_true, List.isEmpty_iff] at hdone
          exact hdone.resolve_left fun hc => hhas (by rw [CycleSearch.has, hc, Bool.or_true])
        exact ⟨h.close hnew hleaf, ⟨fun _ hx => List.mem_cons_of_mem _ hx, fun _ hl => hl⟩,
          .inr List.mem_cons_self, fun hin => absurd hin hnew⟩
    · next hmore =>
      have hfound : t ∉ s.closed := fun hc => hmore (by rw [List.contains_iff_mem.mpr hc, Bool.true_or])
      have hentered : CycleSearch.Fits ids dependsOn ((front ++ [id]) ++ [t]) { s with opened := t :: s.opened } := by
        refine ⟨h.justified.extend hends ht hnew hfound h.closed fun x hx => ?_, fun x hx => ?_, fun x hx => ?_,
          fun a ha b hb => ?_, h.keys, h.distinct, h.sound, h.complete⟩
        · rw [hsplit] at hx
          exact (hdone x ((idxOf_lt_iff hout).mp hx)).1
        · rcases List.mem_append.mp hx with hx | hx
          · exact h.known x hx
          · exact List.mem_singleton.mp hx ▸ hknown id t ht
        · rcases List.mem_cons.mp hx with rfl | hx
          · exact .inr (List.mem_append_right _ List.mem_cons_self)
          · exact (h.opened x hx).imp_right (List.mem_append_left _)
        · exact (h.closed a ha b hb).imp_right (List.mem_append_left _)
      obtain ⟨hfits, hgrows, hclosed⟩ := ih (front ++ [id]) t _ hentered (by
        rw [List.length_append, List.length_singleton]
        omega)
      exact ⟨hfits, ⟨hgrows.closed, hgrows.cycles⟩, .inr hclosed, fun hin => absurd hin hnew⟩

/-- The loop over the targets. -/
theorem targets_fits (ih : Explores ids dependsOn fuel) (h : s.Fits ids dependsOn (front ++ [id]))
    (hnodup : (dependsOn id).Nodup) (hsplit : dependsOn id = done ++ rest)
    (hdone : ∀ x ∈ done, s.Passed (front ++ [id]) x) (hfuel : ids.length < fuel + 1 + (front ++ [id]).length) :
    (rest.foldl (nextTarget dependsOn fuel (front ++ [id])) s).Fits ids dependsOn (front ++ [id]) ∧
      s.Grows (rest.foldl (nextTarget dependsOn fuel (front ++ [id])) s) ∧
      ∀ x ∈ dependsOn id, (rest.foldl (nextTarget dependsOn fuel (front ++ [id])) s).Passed (front ++ [id]) x := by
  induction rest generalizing done s with
  | nil =>
    rw [List.append_nil] at hsplit
    exact ⟨h, .refl s, hsplit ▸ hdone⟩
  | cons t rest ihrest =>
    have hout : t ∉ done := fun hin => by
      rw [hsplit] at hnodup
      exact (List.nodup_append.mp hnodup).2.2 t hin t List.mem_cons_self rfl
    obtain ⟨hfits, hgrows, hpassed⟩ := nextTarget_fits hknown ih h hsplit hout hdone hfuel
    have hsplit' : dependsOn id = (done ++ [t]) ++ rest := by
      rw [hsplit, List.append_assoc]
      rfl
    obtain ⟨hfits', hgrows', hall⟩ := ihrest hfits hsplit' fun x hx => by
      rcases List.mem_append.mp hx with hx | hx
      · exact (hdone x hx).grows hgrows
      · exact List.mem_singleton.mp hx ▸ hpassed
    exact ⟨hfits', hgrows.trans hgrows', hall⟩

theorem explores (hnodup : ∀ x, (dependsOn x).Nodup) (fuel : Nat) : Explores ids dependsOn fuel := by
  induction fuel with
  | zero =>
    intro front id s h hfuel
    have hlength : (front ++ [id]).length ≤ ids.length := (h.justified.nodup.subperm h.known).length_le
    omega
  | succ fuel ih =>
    intro front id s h hfuel
    obtain ⟨hfits, hgrows, hpassed⟩ := targets_fits hknown ih h (hnodup id) (List.nil_append _).symm
      (fun x hx => absurd hx List.not_mem_nil) hfuel
    rw [exploreCycles_eq]
    generalize (dependsOn id).foldl (nextTarget dependsOn fuel (front ++ [id])) s = s₁ at hfits hgrows hpassed
    have hfirst := hfits.justified.firstPath List.getLast?_concat
    have hids := (List.nodup_append.mp hfits.justified.nodup)
    have hout : ∀ x ∈ front, x ≠ id := fun x hx heq => hids.2.2 x hx id List.mem_cons_self heq
    refine ⟨⟨?_, fun x hx => hfits.known x (List.mem_append_left _ hx), fun x hx => ?_, fun a ha b hb => ?_, hfits.keys,
      hfits.distinct, hfits.sound, fun v hv hne => ?_⟩, ⟨fun x hx => List.mem_cons_of_mem _ (hgrows.closed x hx),
      hgrows.cycles⟩, List.mem_cons_self⟩
    · refine (hfits.justified.front rfl).mono (fun x hx => List.mem_cons_of_mem _ hx) fun x hx hin => ?_
      rcases List.mem_cons.mp hin with heq | hin
      · exact hout x hx heq
      · exact hfits.justified.apart x (List.mem_append_left _ hx) hin
    · rcases hfits.opened x hx with hc | hin
      · exact .inl (List.mem_cons_of_mem _ hc)
      · rcases List.mem_append.mp hin with hin | hin
        · exact .inr hin
        · exact .inl (List.mem_singleton.mp hin ▸ List.mem_cons_self)
    · have hcases : b ∈ s₁.closed ∨ b ∈ front ++ [id] := by
        rcases List.mem_cons.mp ha with rfl | ha
        · exact (hpassed b hb).1.symm
        · exact hfits.closed a ha b hb
      rcases hcases with hc | hin
      · exact .inl (List.mem_cons_of_mem _ hc)
      · rcases List.mem_append.mp hin with hin | hin
        · exact .inr hin
        · exact .inl (List.mem_singleton.mp hin ▸ List.mem_cons_self)
    · rcases List.mem_cons.mp hv with rfl | hv
      · exact ⟨front ++ [v], hfirst, fun t ht hin => (hpassed t ht).2 hin⟩
      · exact hfits.complete v hv hne

/-- The turn of the outer loop for one start. -/
def nextStart (ids : List Uuid) (dependsOn : Uuid → List Uuid) (s : CycleSearch) (start : Uuid) : CycleSearch :=
  if s.has start then s
  else exploreCycles dependsOn (ids.length + 1) [start] start { s with opened := start :: s.opened }

omit hknown in
theorem findDependencyCycles_eq :
    findDependencyCycles ids dependsOn = (ids.foldl (nextStart ids dependsOn) ⟨[], [], [], []⟩).cycles := rfl

theorem nextStart_fits (hnodup : ∀ x, (dependsOn x).Nodup) (h : s.Fits ids dependsOn []) (hsplit : ids = done ++ t :: rest)
    (hout : t ∉ done) (hdone : ∀ x ∈ done, x ∈ s.closed) :
    (nextStart ids dependsOn s t).Fits ids dependsOn [] ∧ s.Grows (nextStart ids dependsOn s t) ∧
      t ∈ (nextStart ids dependsOn s t).closed := by
  have ht : t ∈ ids := hsplit ▸ List.mem_append_right _ List.mem_cons_self
  unfold nextStart
  split
  · next hhas =>
    rw [CycleSearch.has, Bool.or_eq_true, List.contains_iff_mem, List.contains_iff_mem] at hhas
    exact ⟨h, .refl s, hhas.elim (fun hopened => (h.opened t hopened).resolve_right List.not_mem_nil) fun hc => hc⟩
  · next hhas =>
    have hfound : t ∉ s.closed := fun hc => hhas (by rw [CycleSearch.has, List.contains_iff_mem.mpr hc, Bool.or_true])
    have hentered : CycleSearch.Fits ids dependsOn ([] ++ [t]) { s with opened := t :: s.opened } := by
      refine ⟨⟨List.nodup_singleton t, .singleton t, fun x hx => List.mem_singleton.mp hx ▸ hfound, fun a ha => ?_,
        fun before a b after heq => ?_⟩, fun x hx => List.mem_singleton.mp hx ▸ ht, fun x hx => ?_,
        fun a ha b hb => ?_, h.keys, h.distinct, h.sound, h.complete⟩
      · cases ha
        refine ⟨ht, (· ∈ s.closed), fun x hx => hx, h.closed, fun x hx => ?_⟩
        rw [hsplit] at hx
        exact hdone x ((idxOf_lt_iff hout).mp hx)
      · have hlength := congrArg List.length heq
        simp only [List.nil_append, List.length_append, List.length_cons, List.length_nil] at hlength
        omega
      · rcases List.mem_cons.mp hx with rfl | hx
        · exact .inr List.mem_cons_self
        · exact .inl ((h.opened x hx).resolve_right List.not_mem_nil)
      · exact .inl ((h.closed a ha b hb).resolve_right List.not_mem_nil)
    obtain ⟨hfits, hgrows, hclosed⟩ := explores hknown hnodup (ids.length + 1) [] t _ hentered (by
      rw [List.nil_append, List.length_singleton]
      omega)
    exact ⟨hfits, ⟨hgrows.closed, hgrows.cycles⟩, hclosed⟩

theorem starts_fits (hnodup : ∀ x, (dependsOn x).Nodup) (hids : ids.Nodup) (h : s.Fits ids dependsOn [])
    (hsplit : ids = done ++ rest) (hdone : ∀ x ∈ done, x ∈ s.closed) :
    (rest.foldl (nextStart ids dependsOn) s).Fits ids dependsOn [] ∧
      ∀ x ∈ ids, x ∈ (rest.foldl (nextStart ids dependsOn) s).closed := by
  induction rest generalizing done s with
  | nil =>
    rw [List.append_nil] at hsplit
    exact ⟨h, hsplit ▸ hdone⟩
  | cons t rest ih =>
    have hout : t ∉ done := fun hin => by
      rw [hsplit] at hids
      exact (List.nodup_append.mp hids).2.2 t hin t List.mem_cons_self rfl
    have hsplit' : ids = (done ++ [t]) ++ rest := by
      rw [hsplit, List.append_assoc]
      rfl
    obtain ⟨hfits, hgrows, hclosed⟩ := nextStart_fits hknown hnodup h hsplit hout hdone
    refine ih hfits hsplit' fun x hx => ?_
    rcases List.mem_append.mp hx with hx | hx
    · exact hgrows.closed x (hdone x hx)
    · exact List.mem_singleton.mp hx ▸ hclosed

end Walk

/-! ## The report -/

theorem Fits.empty : CycleSearch.Fits ids dependsOn [] ⟨[], [], [], []⟩ where
  justified := ⟨List.nodup_nil, .nil, fun _ hx => absurd hx List.not_mem_nil, nofun, fun before _ _ _ heq =>
    absurd heq.symm (by simp)⟩
  known := fun _ hx => absurd hx List.not_mem_nil
  opened := fun _ hx => absurd hx List.not_mem_nil
  closed := fun _ ha => absurd ha List.not_mem_nil
  keys := fun _ => ⟨fun h => absurd h List.not_mem_nil, fun ⟨_, h, _⟩ => absurd h List.not_mem_nil⟩
  distinct := .nil
  sound := fun _ h => absurd h List.not_mem_nil
  complete := fun _ h => absurd h List.not_mem_nil

/-- The walk reports the loops that close first paths. -/
theorem mem_report_iff (hknown : ∀ x, ∀ y ∈ dependsOn x, x ∈ ids ∧ y ∈ ids) (hnodup : ∀ x, (dependsOn x).Nodup)
    (hids : ids.Nodup) : (∃ loop ∈ findDependencyCycles ids dependsOn, x ∈ loop) ↔ OnFirstLoop ids dependsOn x := by
  obtain ⟨hfits, hall⟩ := starts_fits (fun x y hy => (hknown x y hy).2) hnodup hids Fits.empty
    (List.nil_append _).symm (fun x hx => absurd hx List.not_mem_nil)
  rw [findDependencyCycles_eq]
  constructor
  · rintro ⟨loop, hloop, hx⟩
    obtain ⟨before, t, after, v, hpath, ht, rfl⟩ := hfits.sound loop hloop
    exact ⟨before, t, after, v, hpath, ht, hx⟩
  · rintro ⟨before, t, after, v, hpath, ht, hx⟩
    obtain ⟨path, hpath', hreports⟩ := hfits.complete v (hall v (hknown v t ht).1) (List.ne_nil_of_mem ht)
    obtain rfl := hpath.unique hpath'
    obtain ⟨loop, hloop, hkey⟩ := hreports t ht (List.mem_append_right _ List.mem_cons_self)
    have hout : t ∉ before := fun hin =>
      (List.nodup_append.mp hpath.nodup).2.2 t hin t List.mem_cons_self rfl
    rw [dropWhile_path hout] at hkey
    exact ⟨loop, hloop, mem_loopKey.mp (hkey ▸ mem_loopKey.mpr hx)⟩

theorem nodup_indexDependsOn (nodes : PlanNodes) (edges : List PlanNodeEdgeRow) (x : Uuid) :
    (indexDependsOn nodes edges x).Nodup := nodup_eraseDups _

/-- A loop that closes a first path is a simple cycle. -/
theorem FirstPath.isLoop {before after : List Uuid} (h : FirstPath ids (indexDependsOn nodes edges) (before ++ t :: after) v)
    (ht : t ∈ indexDependsOn nodes edges v) : IsLoop (DependsOnAmong nodes edges) (t :: after) where
  nodup := (List.nodup_append.mp h.nodup).2.1
  chain := h.chain.right_of_append.imp fun _ _ => among_of_mem
  closes := ⟨t, v, rfl, by rw [← h.ends, List.getLast?_append_of_ne_nil _ (by simp)], among_of_mem ht⟩

/-- The report is sound whatever the graph. It is complete exactly where every node on a cycle is on a loop
that closes a first path. -/
theorem cycle_report_iff (nodes : PlanNodes) (edges : List PlanNodeEdgeRow) (touched : List PlanTouchedTask) :
    CycleReport (DependsOnAmong nodes edges) (computePlanSequence nodes edges touched).cycles ↔
      ∀ v, Relation.TransGen (DependsOnAmong nodes edges) v v →
        OnFirstLoop nodes.keys (indexDependsOn nodes edges) v := by
  have hknown : ∀ x, ∀ y ∈ indexDependsOn nodes edges x, x ∈ nodes.keys ∧ y ∈ nodes.keys := by
    intro x y hy
    obtain ⟨hx, hy, -⟩ := among_of_mem hy
    exact ⟨hx, hy⟩
  have hcovered : ∀ v, (∃ loop ∈ (computePlanSequence nodes edges touched).cycles, v ∈ loop) ↔
      OnFirstLoop nodes.keys (indexDependsOn nodes edges) v :=
    fun v => mem_report_iff hknown (nodup_indexDependsOn nodes edges) nodes.nodup
  constructor
  · intro h v hv
    exact (hcovered v).mp (h.complete v hv)
  · intro h
    obtain ⟨hfits, -⟩ := starts_fits (fun x y hy => (hknown x y hy).2) (nodup_indexDependsOn nodes edges) nodes.nodup
      Fits.empty (List.nil_append _).symm (fun x hx => absurd hx List.not_mem_nil)
    have hsound : ∀ loop ∈ (computePlanSequence nodes edges touched).cycles,
        IsLoop (DependsOnAmong nodes edges) loop := by
      intro loop hloop
      obtain ⟨before, t, after, v, hpath, ht, rfl⟩ := hfits.sound loop hloop
      exact FirstPath.isLoop hpath ht
    refine ⟨hsound, ?_, fun v hv => (hcovered v).mpr (h v hv)⟩
    refine List.Pairwise.imp_of_mem ?_ hfits.distinct
    intro loop loop' hloop hloop' hne hmem
    exact hne (loopKey_eq (hsound loop hloop).nodup (hsound loop' hloop').nodup hmem)

/-! ## A node in no report -/

namespace Sample

def dependsOnEdge (fromNodeId toNodeId : Uuid) : PlanNodeEdgeRow :=
  { fromNodeId, toNodeId, kind := .dependsOn, note := none }

def fourRoots : PlanNodes :=
  ⟨[row root none "" 0 1 "Plan", row api none "" 1 1 "Api", row web none "" 2 1 "Web", row missingParent none "" 3 1 "Db"],
    by decide⟩

/-- The first three nodes make a loop, and so do the first, the fourth and the third. -/
def crossing : List PlanNodeEdgeRow :=
  [dependsOnEdge root api, dependsOnEdge api web, dependsOnEdge web root, dependsOnEdge root missingParent,
    dependsOnEdge missingParent web]

end Sample

open Haive.Sample in
/-- The third node is done when the fourth comes to it. -/
theorem cross_cycle_unreported : ¬ ∀ nodes edges touched,
    CycleReport (DependsOnAmong nodes edges) (computePlanSequence nodes edges touched).cycles := by
  intro h
  have hedge : ∀ x y, x ∈ fourRoots.keys → y ∈ fourRoots.keys → dependsOnEdge x y ∈ crossing →
      DependsOnAmong fourRoots crossing x y := fun x y hx hy hmem => ⟨hx, hy, _, hmem, rfl, rfl, rfl⟩
  have hcycle : Relation.TransGen (DependsOnAmong fourRoots crossing) missingParent missingParent :=
    .tail (.tail (.single (hedge missingParent web (by decide) (by decide) (by decide)))
      (hedge web root (by decide) (by decide) (by decide))) (hedge root missingParent (by decide) (by decide) (by decide))
  obtain ⟨loop, hloop, hmem⟩ := (h fourRoots crossing []).complete missingParent hcycle
  have hreport : (computePlanSequence fourRoots crossing []).cycles = [[root, api, web]] := by decide
  rw [hreport, List.mem_singleton] at hloop
  subst hloop
  exact absurd hmem (by decide)

end Haive

import Haive.Lib.Edges
import Haive.Lib.Parent

/-!
# Greedy topological order

`R x y`: `x` needs `y`. `Greedy R run out`: each element of `out` is the first one of `run`
that needs nothing but what stands before it in `out`. There is one such list
that nothing can be added to (`Greedy.unique`); it leaves out what leads to a cycle and nothing else
(`Greedy.mem_iff`). Where it takes the whole run, it is the topological order that comes first by
positions in the run (`Greedy.first`), and it is the only one exactly when it never had a choice
(`Greedy.forced_iff`).
-/

namespace Lib

variable {α : Type} {R : α → α → Prop} {run out out' order before after rest : List α} {x y : α}

/-- `x` is not placed, and all that it needs is. -/
def ReadyAfter (R : α → α → Prop) (placed : List α) (x : α) : Prop := x ∉ placed ∧ ∀ y, R x y → y ∈ placed

/-- Nothing more can be placed. -/
def Exhausted (R : α → α → Prop) (run out : List α) : Prop := ∀ x ∈ run, ¬ ReadyAfter R out x

/-- No step of `out` had a choice. -/
def Forced (R : α → α → Prop) (run out : List α) : Prop :=
  ∀ before x after, out = before ++ x :: after → ∀ y ∈ run, ReadyAfter R before y → y = x

/-- It leads to a cycle. -/
def Stuck (R : α → α → Prop) (x : α) : Prop := ∃ c, Relation.ReflTransGen R x c ∧ Relation.TransGen R c c

/-- The elements of the run, none before what it needs. -/
structure Topological (R : α → α → Prop) (run order : List α) : Prop where
  perm : order.Perm run
  later : order.Pairwise fun x y => ¬ R x y
  irrefl : ∀ x ∈ run, ¬ R x x

section Order

variable [DecidableEq α]

def Greedy (R : α → α → Prop) (run out : List α) : Prop :=
  ∀ before x after, out = before ++ x :: after → (x ∈ run ∧ ReadyAfter R before x) ∧
    ∀ y ∈ run, ReadyAfter R before y → run.idxOf x ≤ run.idxOf y

end Order

theorem forced_concat : Forced R run (out ++ [x]) ↔ Forced R run out ∧ ∀ y ∈ run, ReadyAfter R out y → y = x := by
  constructor
  · intro h
    refine ⟨fun before y after heq => h before y (after ++ [x]) ?_, h out x [] rfl⟩
    rw [heq, List.append_assoc, List.cons_append]
  · rintro ⟨h, hlast⟩ before y after heq
    rcases List.eq_nil_or_concat' after with rfl | ⟨after, last, rfl⟩
    · obtain ⟨rfl, hxy⟩ := List.append_inj' heq rfl
      cases hxy
      exact hlast
    · rw [← List.cons_append, ← List.append_assoc] at heq
      exact h before y after (List.append_inj' heq rfl).1

theorem Stuck.step (h : Stuck R x) : ∃ y, R x y ∧ Stuck R y := by
  obtain ⟨c, hxc, hcc⟩ := h
  rcases Relation.ReflTransGen.cases_head hxc with rfl | ⟨y, hxy, hyc⟩
  · obtain ⟨y, hxy, hyx⟩ := Relation.TransGen.head'_iff.mp hcc
    exact ⟨y, hxy, x, hyx, hcc⟩
  · exact ⟨y, hxy, c, hyc, hcc⟩

theorem Stuck.of_step (hxy : R x y) (h : Stuck R y) : Stuck R x := by
  obtain ⟨c, hyc, hcc⟩ := h
  exact ⟨c, hyc.head hxy, hcc⟩

theorem parts : ∀ l l' : List α, (∃ rest, l' = l ++ rest) ∨ (∃ rest, l = l' ++ rest) ∨
    ∃ front x y rest rest', x ≠ y ∧ l = front ++ x :: rest ∧ l' = front ++ y :: rest'
  | [], l' => .inl ⟨l', rfl⟩
  | x :: l, [] => .inr (.inl ⟨x :: l, rfl⟩)
  | x :: l, y :: l' => by
    rcases Classical.em (x = y) with rfl | hne
    · rcases parts l l' with ⟨rest, rfl⟩ | ⟨rest, rfl⟩ | ⟨front, a, b, rest, rest', hab, rfl, rfl⟩
      · exact .inl ⟨rest, rfl⟩
      · exact .inr (.inl ⟨rest, rfl⟩)
      · exact .inr (.inr ⟨x :: front, a, b, rest, rest', hab, rfl, rfl⟩)
    · exact .inr (.inr ⟨[], x, y, l, l', hne, rfl, rfl⟩)

theorem append_eq_left {l rest : List α} (hlength : l.length = (l ++ rest).length) : l ++ rest = l := by
  rw [List.length_append] at hlength
  rw [List.eq_nil_of_length_eq_zero (l := rest) (by omega), List.append_nil]

theorem Topological.ready (h : Topological R run order) (hrun : run.Nodup) (hneeds : ∀ x y, R x y → y ∈ run)
    (heq : order = before ++ x :: after) : x ∈ run ∧ ReadyAfter R before x := by
  have hx : x ∈ run := h.perm.mem_iff.mp (heq ▸ List.mem_append_right _ List.mem_cons_self)
  have hnodup : (before ++ x :: after).Nodup := heq ▸ h.perm.nodup_iff.mpr hrun
  refine ⟨hx, fun hin => (List.nodup_append.mp hnodup).2.2 x hin x List.mem_cons_self rfl, fun y hxy => ?_⟩
  have hy : y ∈ before ++ x :: after := heq ▸ h.perm.mem_iff.mpr (hneeds x y hxy)
  rcases List.mem_append.mp hy with hy | hy
  · exact hy
  · rcases List.mem_cons.mp hy with rfl | hy
    · exact absurd hxy (h.irrefl _ hx)
    · have hlater := h.later
      rw [heq, List.pairwise_append, List.pairwise_cons] at hlater
      exact absurd hxy (hlater.2.1.1 y hy)

/-- An element that was ready earlier can be taken earlier. -/
theorem Topological.earlier {skipped : List α} (h : Topological R run (before ++ skipped ++ y :: rest)) (hrun : run.Nodup)
    (hready : ReadyAfter R before y) : Topological R run (before ++ y :: skipped ++ rest) := by
  have hperm : (before ++ y :: skipped ++ rest).Perm (before ++ skipped ++ y :: rest) := by
    rw [List.append_assoc, List.append_assoc]
    exact List.Perm.append_left before List.perm_middle.symm
  have hnodup : (before ++ (skipped ++ y :: rest)).Nodup := by
    rw [← List.append_assoc]
    exact h.perm.nodup_iff.mpr hrun
  have hneeds : ∀ z ∈ skipped, ¬ R y z := fun z hz hyz =>
    (List.nodup_append.mp hnodup).2.2 z (hready.2 z hyz) z (List.mem_append_left _ hz) rfl
  have hlater := h.later
  rw [List.append_assoc, List.pairwise_append, List.pairwise_append, List.pairwise_cons] at hlater
  obtain ⟨hbefore, ⟨hskipped, ⟨hy, hrest⟩, hcross⟩, hfront⟩ := hlater
  refine ⟨hperm.trans h.perm, ?_, h.irrefl⟩
  rw [List.append_assoc, List.cons_append, List.pairwise_append, List.pairwise_cons, List.pairwise_append]
  refine ⟨hbefore, ⟨fun z hz => ?_, hskipped, hrest, fun a ha b hb => hcross a ha b (List.mem_cons_of_mem _ hb)⟩,
    fun a ha b hb => hfront a ha b ?_⟩
  · rcases List.mem_append.mp hz with hz | hz
    · exact hneeds z hz
    · exact hy z hz
  · rcases List.mem_cons.mp hb with rfl | hb
    · exact List.mem_append_right _ List.mem_cons_self
    · exact (List.mem_append.mp hb).elim (List.mem_append_left _) fun hb =>
        List.mem_append_right _ (List.mem_cons_of_mem _ hb)

variable [DecidableEq α]

theorem Topological.lt (h : Topological R run order) (hrun : run.Nodup) (hneeds : ∀ x y, R x y → y ∈ run) (hx : x ∈ run)
    (hxy : R x y) : order.idxOf y < order.idxOf x := by
  obtain ⟨before, after, rfl⟩ := List.append_of_mem (h.perm.mem_iff.mpr hx)
  obtain ⟨hout, hready⟩ := (h.ready hrun hneeds rfl).2
  exact (idxOf_lt_iff hout).mpr (hready y hxy)

theorem Topological.cycleFree (h : Topological R run order) (hrun : run.Nodup) (hneeds : ∀ x y, R x y → x ∈ run ∧ y ∈ run) :
    CycleFree R := by
  intro x hx
  have hlt : ∀ y, Relation.TransGen R x y → order.idxOf y < order.idxOf x := by
    intro y hxy
    induction hxy with
    | single hstep => exact h.lt hrun (fun a b hab => (hneeds a b hab).2) (hneeds _ _ hstep).1 hstep
    | tail _ hstep ih =>
      exact (h.lt hrun (fun a b hab => (hneeds a b hab).2) (hneeds _ _ hstep).1 hstep).trans ih
  exact Nat.lt_irrefl _ (hlt x hx)

namespace Greedy

theorem nil : Greedy R run [] := fun before x after heq => absurd heq (by simp)

theorem snoc (h : Greedy R run out) (hx : x ∈ run) (hready : ReadyAfter R out x)
    (hfirst : ∀ y ∈ run, ReadyAfter R out y → run.idxOf x ≤ run.idxOf y) : Greedy R run (out ++ [x]) := by
  intro before y after heq
  rcases List.eq_nil_or_concat' after with rfl | ⟨after, last, rfl⟩
  · obtain ⟨rfl, hxy⟩ := List.append_inj' heq rfl
    cases hxy
    exact ⟨⟨hx, hready⟩, hfirst⟩
  · rw [← List.cons_append, ← List.append_assoc] at heq
    exact h before y after (List.append_inj' heq rfl).1

theorem front (h : Greedy R run (out ++ rest)) : Greedy R run out := fun before x after heq =>
  h before x (after ++ rest) (by rw [heq, List.append_assoc, List.cons_append])

theorem mem_run (h : Greedy R run out) (hx : x ∈ out) : x ∈ run := by
  obtain ⟨before, after, rfl⟩ := List.append_of_mem hx
  exact (h before x after rfl).1.1

theorem nodup (h : Greedy R run out) : out.Nodup := by
  induction out using List.reverseRecOn with
  | nil => exact List.nodup_nil
  | append_singleton out x ih =>
    refine List.nodup_append.mpr ⟨ih h.front, List.nodup_singleton x, fun a ha b hb heq => ?_⟩
    obtain rfl := List.mem_singleton.mp hb
    exact (h out b [] rfl).1.2.1 (heq ▸ ha)

/-- What an element needs stands before it. -/
theorem needs (h : Greedy R run out) (hx : x ∈ out) (hxy : R x y) : y ∈ out ∧ out.idxOf y < out.idxOf x := by
  obtain ⟨before, after, rfl⟩ := List.append_of_mem hx
  obtain ⟨hout, hneeds⟩ := (h before x after rfl).1.2
  exact ⟨List.mem_append_left _ (hneeds y hxy), (idxOf_lt_iff hout).mpr (hneeds y hxy)⟩

theorem later (h : Greedy R run out) : out.Pairwise fun x y => ¬ R x y := by
  induction out using List.reverseRecOn with
  | nil => exact .nil
  | append_singleton out x ih =>
    refine List.pairwise_append.mpr ⟨ih h.front, List.pairwise_singleton _ x, fun a ha b hb hab => ?_⟩
    obtain rfl := List.mem_singleton.mp hb
    exact (h out b [] rfl).1.2.1 (h.front.needs ha hab).1

/-- What leads to a cycle is never placed. -/
theorem not_stuck (h : Greedy R run out) (hx : x ∈ out) : ¬ Stuck R x := by
  induction hn : out.idxOf x using Nat.strongRecOn generalizing x with
  | _ n ih =>
    intro hstuck
    obtain ⟨y, hxy, hy⟩ := hstuck.step
    obtain ⟨hin, hlt⟩ := h.needs hx hxy
    exact ih _ (hn ▸ hlt) hin rfl hy

/-- What is left over leads to a cycle: each such element needs another one. -/
theorem stuck (hexhausted : Exhausted R run out) (hneeds : ∀ x y, R x y → y ∈ run) (hx : x ∈ run) (hout : x ∉ out) :
    Stuck R x := by
  refine Classical.byContradiction fun hfree => ?_
  classical
  let Left := fun z => z ∈ run ∧ z ∉ out ∧ ¬ Stuck R z
  have hnext : ∀ z, Left z → ∃ y, R z y ∧ Left y := by
    rintro z ⟨hz, hzout, hzfree⟩
    have hwaits : ¬ ∀ y, R z y → y ∈ out := fun hall => hexhausted z hz ⟨hzout, hall⟩
    obtain ⟨y, hy⟩ := not_forall.mp hwaits
    obtain ⟨hzy, hyout⟩ := Classical.not_imp.mp hy
    exact ⟨y, hzy, hneeds z y hzy, hyout, fun hstuck => hzfree (hstuck.of_step hzy)⟩
  let p : α → Option α := fun z => if hz : Left z then some (hnext z hz).choose else none
  have hp : ∀ z y, p z = some y → Left z ∧ R z y ∧ Left y := by
    intro z y hzy
    simp only [p] at hzy
    split at hzy
    · next hz =>
      obtain rfl := Option.some.inj hzy
      exact ⟨hz, (hnext z hz).choose_spec⟩
    · cases hzy
  have habove : ∀ a b, Above p a b → Relation.TransGen R a b := fun a b hab =>
    Relation.TransGen.mono (fun z y hzy => (hp z y hzy).2.1) _ _ hab
  have hacyclic : Acyclic p := by
    intro z hz
    obtain ⟨y, hzy, -⟩ := above_iff.mp hz
    exact (hp z y hzy).1.2.2 ⟨z, .refl, habove z z hz⟩
  have hrooted : Rooted p x := rooted_of_acyclic (s := run.toFinset)
    (fun z _ y hzy => List.mem_toFinset.mpr (hp z y hzy).2.2.1) hacyclic (List.mem_toFinset.mpr hx)
  refine hrooted.not_trapped (s := Left) (fun z hz => ?_) ⟨hx, hout, hfree⟩
  exact ⟨_, dif_pos hz, (hp z _ (dif_pos hz)).2.2⟩

theorem mem_iff (h : Greedy R run out) (hexhausted : Exhausted R run out) (hneeds : ∀ x y, R x y → y ∈ run)
    (hx : x ∈ run) : x ∈ out ↔ ¬ Stuck R x :=
  ⟨h.not_stuck, fun hfree => Classical.byContradiction fun hout => hfree (stuck hexhausted hneeds hx hout)⟩

theorem unique (h : Greedy R run out) (h' : Greedy R run out') (he : Exhausted R run out) (he' : Exhausted R run out') :
    out = out' := by
  have full : ∀ {out rest}, Greedy R run (out ++ rest) → Exhausted R run out → out ++ rest = out := by
    intro out rest h he
    cases rest with
    | nil => exact List.append_nil _
    | cons x rest =>
      obtain ⟨hx, hready⟩ := (h out x rest rfl).1
      exact absurd hready (he x hx)
  rcases parts out out' with ⟨rest, rfl⟩ | ⟨rest, rfl⟩ | ⟨front, x, y, rest, rest', hne, rfl, rfl⟩
  · exact (full h' he).symm
  · exact full h he'
  · obtain ⟨⟨hx, hxready⟩, hxfirst⟩ := h front x rest rfl
    obtain ⟨⟨hy, hyready⟩, hyfirst⟩ := h' front y rest' rfl
    exact absurd ((List.idxOf_inj hx).mp (Nat.le_antisymm (hxfirst y hy hyready) (hyfirst x hx hxready))) hne

/-- The list takes the whole run where nothing leads to a cycle. -/
theorem topological (h : Greedy R run out) (hexhausted : Exhausted R run out) (hneeds : ∀ x y, R x y → y ∈ run)
    (hrun : run.Nodup) (hfree : CycleFree R) : Topological R run out where
  perm := (List.perm_ext_iff_of_nodup h.nodup hrun).mpr fun _ =>
    ⟨h.mem_run, fun hx => (h.mem_iff hexhausted hneeds hx).mpr fun ⟨c, _, hc⟩ => hfree c hc⟩
  later := h.later
  irrefl := fun x _ hxx => hfree x (.single hxx)

/-- It comes first by positions in the run. -/
theorem first (h : Greedy R run out) (hperm : out.Perm run) (hneeds : ∀ x y, R x y → y ∈ run) (hrun : run.Nodup)
    (horder : Topological R run order) :
    order = out ∨ List.Lex (fun x y => run.idxOf x < run.idxOf y) out order := by
  have hlength : out.length = order.length := hperm.length_eq.trans horder.perm.length_eq.symm
  rcases parts out order with ⟨rest, rfl⟩ | ⟨rest, rfl⟩ | ⟨front, x, y, rest, rest', hne, rfl, rfl⟩
  · exact .inl (append_eq_left hlength)
  · exact .inl (append_eq_left hlength.symm).symm
  · obtain ⟨⟨hx, -⟩, hfirst⟩ := h front x rest rfl
    obtain ⟨hy, hready⟩ := horder.ready hrun hneeds rfl
    have hlt : run.idxOf x < run.idxOf y :=
      Nat.lt_of_le_of_ne (hfirst y hy hready) fun heq => hne ((List.idxOf_inj hx).mp heq)
    refine .inr ?_
    clear h hperm hrun horder hlength hfirst hready
    induction front with
    | nil => exact .rel hlt
    | cons a front ih => exact .cons ih

/-- The order is the only one exactly when there never was a choice. -/
theorem forced_iff (h : Greedy R run out) (hout : Topological R run out) (hneeds : ∀ x y, R x y → y ∈ run)
    (hrun : run.Nodup) : Forced R run out ↔ ∀ order, Topological R run order → order = out := by
  constructor
  · intro hforced order horder
    have hlength : out.length = order.length := hout.perm.length_eq.trans horder.perm.length_eq.symm
    rcases parts out order with ⟨rest, rfl⟩ | ⟨rest, rfl⟩ | ⟨front, x, y, rest, rest', hne, rfl, rfl⟩
    · exact append_eq_left hlength
    · exact (append_eq_left hlength.symm).symm
    · obtain ⟨hy, hready⟩ := horder.ready hrun hneeds rfl
      exact absurd (hforced front x rest rfl y hy hready).symm hne
  · intro honly before x after heq y hy hready
    have hin : y ∈ x :: after := by
      have hmem : y ∈ before ++ x :: after := heq ▸ hout.perm.mem_iff.mpr hy
      exact (List.mem_append.mp hmem).resolve_left hready.1
    obtain ⟨skipped, rest, hsplit⟩ := List.append_of_mem hin
    have hout' : Topological R run (before ++ skipped ++ y :: rest) := by
      rw [List.append_assoc, ← hsplit, ← heq]
      exact hout
    have hsame := honly _ (hout'.earlier hrun hready)
    rw [heq, List.append_assoc, List.cons_append] at hsame
    exact (List.cons.inj (List.append_cancel_left hsame)).1

/-- It is the list of its own result too. -/
theorem again (h : Greedy R run out) (hnodup : (out ++ rest).Nodup) : Greedy R (out ++ rest) out := by
  intro before x after heq
  have hsplit : out ++ rest = before ++ x :: (after ++ rest) := by rw [heq, List.append_assoc, List.cons_append]
  rw [hsplit] at hnodup ⊢
  have hnew : x ∉ before := fun hin => (List.nodup_append.mp hnodup).2.2 x hin x List.mem_cons_self rfl
  exact ⟨⟨List.mem_append_right _ List.mem_cons_self, (h before x after heq).1.2⟩, fun y _ hready =>
    Nat.le_of_not_lt fun hlt => hready.1 ((idxOf_lt_iff hnew).mp hlt)⟩

/-- The run is the list and what is left of it exactly where it lists what leads to no cycle first, each such
element after what it needs. -/
theorem eq_append_iff (h : Greedy R run out) (hexhausted : Exhausted R run out) (hneeds : ∀ x y, R x y → y ∈ run)
    (hrun : run.Nodup) : out ++ run.filter (· ∉ out) = run ↔
      (∀ x ∈ run, ∀ y ∈ run, ¬ Stuck R x → Stuck R y → run.idxOf x < run.idxOf y) ∧
        ∀ x ∈ run, ¬ Stuck R x → ∀ y, R x y → run.idxOf y < run.idxOf x := by
  have hmem : ∀ x ∈ run, x ∈ out ↔ ¬ Stuck R x := fun x hx => h.mem_iff hexhausted hneeds hx
  constructor
  · intro heq
    have hidx : ∀ x ∈ out, run.idxOf x = out.idxOf x := fun x hx => by
      rw [← heq]
      exact List.idxOf_append_of_mem hx
    refine ⟨fun x hx y hy hxfree hystuck => ?_, fun x hx hxfree y hxy => ?_⟩
    · have hxout := (hmem x hx).mpr hxfree
      have hyout : y ∉ out := fun hin => (hmem y hy).mp hin hystuck
      have hlt : out.idxOf x < out.length := List.idxOf_lt_length_iff.mpr hxout
      rw [hidx x hxout, ← heq, List.idxOf_append_of_notMem hyout]
      omega
    · obtain ⟨hin, hlt⟩ := h.needs ((hmem x hx).mpr hxfree) hxy
      rw [hidx y hin, hidx x ((hmem x hx).mpr hxfree)]
      exact hlt
  · rintro ⟨hsplit, hafter⟩
    have hparts : run.filter (· ∈ out) ++ run.filter (· ∉ out) = run := by
      refine filter_append_filter_not (pairwise_of_idxOf hrun fun x hx y hy hlt hyout => (hmem x hx).mpr fun hstuck => ?_)
      exact Nat.lt_asymm hlt (hsplit y hy x hx ((hmem y hy).mp hyout) hstuck)
    have hgreedy : Greedy R run (run.filter (· ∈ out)) := by
      intro before x after heq
      rw [heq, List.append_assoc, List.cons_append] at hparts
      have hfree : x ∈ run.filter (· ∈ out) := heq ▸ List.mem_append_right _ List.mem_cons_self
      obtain ⟨hx, hxout⟩ := List.mem_filter.mp hfree
      have hnodup : (before ++ x :: (after ++ run.filter (· ∉ out))).Nodup := by
        rw [hparts]
        exact hrun
      have hnew : x ∉ before := fun hin => (List.nodup_append.mp hnodup).2.2 x hin x List.mem_cons_self rfl
      have hbefore : ∀ y, run.idxOf y < run.idxOf x ↔ y ∈ before := fun y => by
        rw [← hparts]
        exact idxOf_lt_iff hnew
      refine ⟨⟨hx, hnew, fun y hxy => ?_⟩, fun y _ hready => ?_⟩
      · exact (hbefore y).mp (hafter x hx ((hmem x hx).mp (of_decide_eq_true hxout)) y hxy)
      · exact Nat.le_of_not_lt fun hlt => hready.1 ((hbefore y).mp hlt)
    have hfull : Exhausted R run (run.filter (· ∈ out)) := by
      rintro x hx ⟨hout, hall⟩
      have hstuck : Stuck R x := Classical.byContradiction fun hfree =>
        hout (List.mem_filter.mpr ⟨hx, decide_eq_true ((hmem x hx).mpr hfree)⟩)
      obtain ⟨y, hxy, hy⟩ := hstuck.step
      obtain ⟨hyrun, hyout⟩ := List.mem_filter.mp (hall y hxy)
      exact (hmem y hyrun).mp (of_decide_eq_true hyout) hy
    rw [hgreedy.unique h hfull hexhausted] at hparts
    exact hparts

end Greedy

end Lib

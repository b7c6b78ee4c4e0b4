import Haive.Plan.Schema
import Haive.Lib.Distance

/-!
# Impact

`computeImpact` of `shared/src/plan/impact.ts`: a walk by levels over the edges of a plan, with a cap on
the levels and a cap on the nodes. Limits are any rational numbers. A walk that a cap has
stopped keeps its `truncated`, and what comes after leaves it as it is: that is the early return.
-/

namespace Haive

open Lib

structure PlanEdgeRecord where
  fromNodeId : String
  toNodeId : String
  kind : PlanEdgeKind
deriving DecidableEq

def IMPACT_DEFAULT_MAX_DEPTH : Rat := 4

def IMPACT_DEFAULT_MAX_NODES : Rat := 200

structure ImpactOptions where
  maxDepth : Rat := IMPACT_DEFAULT_MAX_DEPTH
  maxNodes : Rat := IMPACT_DEFAULT_MAX_NODES
  kinds : Option (List PlanEdgeKind) := none
  bidirectional : Bool := true

structure ImpactHop where
  nodeId : String
  depth : Nat
  viaNodeId : String
  viaKind : PlanEdgeKind
  reversed : Bool
deriving DecidableEq

inductive ImpactCap
  | depth | nodes
deriving DecidableEq

structure ImpactTruncation where
  reason : ImpactCap
  limit : Rat
deriving DecidableEq

structure ImpactResult where
  originNodeIds : List String
  hops : List ImpactHop
  truncated : Option ImpactTruncation
deriving DecidableEq

/-! ## The walk -/

def ImpactOptions.follows (opts : ImpactOptions) (e : PlanEdgeRecord) : Bool :=
  match opts.kinds with
  | none => true
  | some kinds => kinds.contains e.kind

/-- `forward.get(id)`. -/
def forward (opts : ImpactOptions) (edges : List PlanEdgeRecord) (id : String) : List PlanEdgeRecord :=
  edges.filter fun e => opts.follows e && e.fromNodeId = id

/-- `backward.get(id)`, where the walk goes both ways. -/
def backward (opts : ImpactOptions) (edges : List PlanEdgeRecord) (id : String) : List PlanEdgeRecord :=
  if opts.bidirectional then edges.filter fun e => opts.follows e && e.toNodeId = id else []

def tries (opts : ImpactOptions) (edges : List PlanEdgeRecord) (depth : Nat) (current : String) : List ImpactHop :=
  (forward opts edges current).map (fun e => ⟨e.toNodeId, depth, current, e.kind, false⟩) ++
    (backward opts edges current).map fun e => ⟨e.fromNodeId, depth, current, e.kind, true⟩

structure ImpactWalk where
  hops : List ImpactHop
  visited : List String
  next : List String
  truncated : Option ImpactTruncation

/-- `pushHop`, and the node joins the next level. -/
def pushHop (maxNodes : Rat) (w : ImpactWalk) (hop : ImpactHop) : ImpactWalk :=
  if w.truncated.isSome then w
  else if w.visited.contains hop.nodeId then w
  else if maxNodes ≤ w.hops.length then { w with truncated := some ⟨.nodes, maxNodes⟩ }
  else
    { w with visited := hop.nodeId :: w.visited, hops := w.hops ++ [hop], next := w.next ++ [hop.nodeId] }

def walkLevel (opts : ImpactOptions) (edges : List PlanEdgeRecord) (depth : Nat) (frontier : List String) (w : ImpactWalk) :
    ImpactWalk :=
  (frontier.flatMap (tries opts edges depth)).foldl (pushHop opts.maxNodes) { w with next := [] }

def moreToSee (opts : ImpactOptions) (edges : List PlanEdgeRecord) (frontier visited : List String) : Bool :=
  frontier.any fun id => (forward opts edges id ++ backward opts edges id).any fun e =>
    !visited.contains (if e.fromNodeId = id then e.toNodeId else e.fromNodeId)

def walkLevels (opts : ImpactOptions) (edges : List PlanEdgeRecord) : Nat → Nat → List String → ImpactWalk → ImpactWalk
  | 0, _, frontier, w =>
    if moreToSee opts edges frontier w.visited then { w with truncated := some ⟨.depth, opts.maxDepth⟩ } else w
  | left + 1, depth, frontier, w =>
    let w' := walkLevel opts edges depth frontier w
    if w'.truncated.isSome || w'.next.isEmpty then w' else walkLevels opts edges left (depth + 1) w'.next w'

def computeImpact (originNodeIds : List String) (edges : List PlanEdgeRecord) (opts : ImpactOptions) : ImpactResult :=
  let w := walkLevels opts edges opts.maxDepth.floor.toNat 1 originNodeIds ⟨[], originNodeIds, [], none⟩
  ⟨originNodeIds, w.hops, w.truncated⟩

/-! ## The property -/

/-- A change of `x` reaches `y` over one edge. -/
def Impacts (opts : ImpactOptions) (edges : List PlanEdgeRecord) (x y : String) : Prop :=
  ∃ e ∈ edges, opts.follows e = true ∧
    (e.fromNodeId = x ∧ e.toNodeId = y ∨ opts.bidirectional = true ∧ e.toNodeId = x ∧ e.fromNodeId = y)

def ImpactHop.Follows (opts : ImpactOptions) (edges : List PlanEdgeRecord) (hop : ImpactHop) : Prop :=
  ∃ e ∈ edges, opts.follows e = true ∧ e.kind = hop.viaKind ∧
    (hop.reversed = false ∧ e.fromNodeId = hop.viaNodeId ∧ e.toNodeId = hop.nodeId ∨
      hop.reversed = true ∧ opts.bidirectional = true ∧ e.toNodeId = hop.viaNodeId ∧ e.fromNodeId = hop.nodeId)

structure ExactImpact (origins : List String) (edges : List PlanEdgeRecord) (opts : ImpactOptions) (result : ImpactResult) :
    Prop where
  starts : result.originNodeIds = origins
  distinct : (result.hops.map (·.nodeId)).Nodup
  fresh : ∀ h ∈ result.hops, h.nodeId ∉ origins
  depth : ∀ h ∈ result.hops, IsDist (Impacts opts edges) origins h.depth h.nodeId
  follows : ∀ h ∈ result.hops, h.Follows opts edges
  via : ∀ before h after, result.hops = before ++ h :: after →
    h.viaNodeId ∈ origins ∧ h.depth = 1 ∨ ∃ h' ∈ before, h'.nodeId = h.viaNodeId ∧ h'.depth + 1 = h.depth
  complete : result.truncated = none ↔
    ∀ x, x ∈ result.hops.map (·.nodeId) ↔ x ∉ origins ∧ ReachedFrom (Impacts opts edges) origins x
  within : ∀ limit, result.truncated = some ⟨.depth, limit⟩ → limit = opts.maxDepth ∧
    ∀ x, x ∈ result.hops.map (·.nodeId) ↔
      x ∉ origins ∧ ∃ n : Nat, IsDist (Impacts opts edges) origins n x ∧ (n : Rat) ≤ opts.maxDepth

variable {opts : ImpactOptions} {edges : List PlanEdgeRecord} {origins frontier : List String} {w : ImpactWalk} {d left : Nat}
  {hop : ImpactHop} {current x y : String}

theorem ImpactHop.Follows.impacts (h : hop.Follows opts edges) : Impacts opts edges hop.viaNodeId hop.nodeId := by
  obtain ⟨e, he, hfollows, -, ⟨-, hfrom, hto⟩ | ⟨-, hboth, hto, hfrom⟩⟩ := h
  · exact ⟨e, he, hfollows, .inl ⟨hfrom, hto⟩⟩
  · exact ⟨e, he, hfollows, .inr ⟨hboth, hto, hfrom⟩⟩

theorem mem_forward {e : PlanEdgeRecord} :
    e ∈ forward opts edges x ↔ e ∈ edges ∧ opts.follows e = true ∧ e.fromNodeId = x := by
  rw [forward, List.mem_filter, Bool.and_eq_true, decide_eq_true_eq]

theorem mem_backward {e : PlanEdgeRecord} : e ∈ backward opts edges x ↔
    e ∈ edges ∧ opts.follows e = true ∧ opts.bidirectional = true ∧ e.toNodeId = x := by
  unfold backward
  split
  · next hboth => simp [hboth]
  · next hone => simp [hone]

theorem mem_tries {depth : Nat} (h : hop ∈ tries opts edges depth current) :
    hop.depth = depth ∧ hop.viaNodeId = current ∧ hop.Follows opts edges := by
  rcases List.mem_append.mp h with h | h
  · obtain ⟨e, he, rfl⟩ := List.mem_map.mp h
    obtain ⟨hmem, hfollows, hfrom⟩ := mem_forward.mp he
    exact ⟨rfl, rfl, e, hmem, hfollows, rfl, .inl ⟨rfl, hfrom, rfl⟩⟩
  · obtain ⟨e, he, rfl⟩ := List.mem_map.mp h
    obtain ⟨hmem, hfollows, hboth, hto⟩ := mem_backward.mp he
    exact ⟨rfl, rfl, e, hmem, hfollows, rfl, .inr ⟨rfl, hboth, hto, rfl⟩⟩

/-- Every neighbour is tried. -/
theorem exists_tries (h : Impacts opts edges x y) (depth : Nat) : ∃ hop ∈ tries opts edges depth x, hop.nodeId = y := by
  obtain ⟨e, he, hfollows, ⟨hfrom, rfl⟩ | ⟨hboth, hto, rfl⟩⟩ := h
  · exact ⟨_, List.mem_append_left _ (List.mem_map.mpr ⟨e, mem_forward.mpr ⟨he, hfollows, hfrom⟩, rfl⟩), rfl⟩
  · exact ⟨_, List.mem_append_right _ (List.mem_map.mpr ⟨e, mem_backward.mpr ⟨he, hfollows, hboth, hto⟩, rfl⟩), rfl⟩

theorem moreToSee_iff {visited : List String} : moreToSee opts edges frontier visited = true ↔
    ∃ x ∈ frontier, ∃ y, Impacts opts edges x y ∧ y ∉ visited := by
  rw [moreToSee, List.any_eq_true]
  refine exists_congr fun x => and_congr_right fun _ => ?_
  rw [List.any_eq_true]
  constructor
  · rintro ⟨e, he, hnew⟩
    refine ⟨_, ?_, by simpa using hnew⟩
    rcases List.mem_append.mp he with he | he
    · obtain ⟨hmem, hfollows, hfrom⟩ := mem_forward.mp he
      rw [if_pos hfrom]
      exact ⟨e, hmem, hfollows, .inl ⟨hfrom, rfl⟩⟩
    · obtain ⟨hmem, hfollows, hboth, hto⟩ := mem_backward.mp he
      split
      · next hfrom => exact ⟨e, hmem, hfollows, .inl ⟨hfrom, rfl⟩⟩
      · exact ⟨e, hmem, hfollows, .inr ⟨hboth, hto, rfl⟩⟩
  · rintro ⟨y, ⟨e, he, hfollows, ⟨hfrom, rfl⟩ | ⟨hboth, hto, rfl⟩⟩, hnew⟩
    · refine ⟨e, List.mem_append_left _ (mem_forward.mpr ⟨he, hfollows, hfrom⟩), ?_⟩
      rw [if_pos hfrom]
      simpa using hnew
    · refine ⟨e, List.mem_append_right _ (mem_backward.mpr ⟨he, hfollows, hboth, hto⟩), ?_⟩
      split
      · next hfrom => simpa [hto, ← hfrom] using hnew
      · simpa using hnew

/-! ## A level -/

/-- What holds of the hops throughout. -/
structure SoundHops (origins : List String) (edges : List PlanEdgeRecord) (opts : ImpactOptions) (hops : List ImpactHop)
    (visited : List String) : Prop where
  visited : ∀ x, x ∈ visited ↔ x ∈ origins ∨ x ∈ hops.map (·.nodeId)
  distinct : (hops.map (·.nodeId)).Nodup
  fresh : ∀ h ∈ hops, h.nodeId ∉ origins
  dist : ∀ h ∈ hops, IsDist (Impacts opts edges) origins h.depth h.nodeId
  follows : ∀ h ∈ hops, h.Follows opts edges
  via : ∀ before h after, hops = before ++ h :: after →
    h.viaNodeId ∈ origins ∧ h.depth = 1 ∨ ∃ h' ∈ before, h'.nodeId = h.viaNodeId ∧ h'.depth + 1 = h.depth

/-- What holds while the walk makes the level after `d`. -/
structure ImpactWalk.Fits (origins : List String) (edges : List PlanEdgeRecord) (opts : ImpactOptions) (d : Nat)
    (w : ImpactWalk) : Prop where
  sound : SoundHops origins edges opts w.hops w.visited
  near : ∀ x, Near (Impacts opts edges) origins d x → x ∈ w.visited
  depth : ∀ h ∈ w.hops, h.depth ≤ d + 1
  next : ∀ x, x ∈ w.next ↔ ∃ h ∈ w.hops, h.nodeId = x ∧ h.depth = d + 1

/-- Some node is not in the answer. -/
def ImpactWalk.Incomplete (origins : List String) (edges : List PlanEdgeRecord) (opts : ImpactOptions) (w : ImpactWalk) :
    Prop :=
  ∃ x, ReachedFrom (Impacts opts edges) origins x ∧ x ∉ w.visited

/-- The cap on the nodes has stopped the walk, or it has not. -/
def ImpactWalk.Goes (origins : List String) (edges : List PlanEdgeRecord) (opts : ImpactOptions) (w : ImpactWalk)
    (tried : List ImpactHop) : Prop :=
  w.truncated = none ∧ (∀ hop ∈ tried, hop.nodeId ∈ w.visited) ∨
    w.truncated = some ⟨.nodes, opts.maxNodes⟩ ∧ w.Incomplete origins edges opts

theorem start_fits : (ImpactWalk.mk [] origins [] none).Fits origins edges opts 0 where
  sound := ⟨fun x => by simp, List.nodup_nil, fun _ h => absurd h List.not_mem_nil, fun _ h => absurd h List.not_mem_nil,
    fun _ h => absurd h List.not_mem_nil, fun before h after heq => absurd heq.symm (by simp)⟩
  near := fun _ hx => near_zero.mp hx
  depth := fun _ h => absurd h List.not_mem_nil
  next := fun x => by simp

/-- A visited node at distance `d` is an origin or an earlier hop. -/
theorem ImpactWalk.Fits.via_of_isDist (h : w.Fits origins edges opts d) (hdist : IsDist (Impacts opts edges) origins d x) :
    x ∈ origins ∧ d = 0 ∨ ∃ h' ∈ w.hops, h'.nodeId = x ∧ h'.depth = d := by
  rcases (h.sound.visited x).mp (h.near x hdist.near) with hx | hx
  · exact .inl ⟨hx, hdist.unique (isDist_zero hx)⟩
  · obtain ⟨h', hmem, rfl⟩ := List.mem_map.mp hx
    exact .inr ⟨h', hmem, rfl, (h.sound.dist h' hmem).unique hdist⟩

theorem ImpactWalk.Fits.push (h : w.Fits origins edges opts d) (hgoes : w.truncated = none)
    (hdist : IsDist (Impacts opts edges) origins d hop.viaNodeId) (hdepth : hop.depth = d + 1)
    (hfollows : hop.Follows opts edges) (hnew : hop.nodeId ∉ w.visited) (hroom : ¬ opts.maxNodes ≤ w.hops.length) :
    (pushHop opts.maxNodes w hop).Fits origins edges opts d := by
  have hreached : IsDist (Impacts opts edges) origins hop.depth hop.nodeId := by
    rw [hdepth]
    exact isDist_succ (hdist.near.step hfollows.impacts) fun hnear => hnew (h.near _ hnear)
  have hout := not_or.mp (mt (h.sound.visited hop.nodeId).mpr hnew)
  have heq : pushHop opts.maxNodes w hop = { w with
      visited := hop.nodeId :: w.visited, hops := w.hops ++ [hop], next := w.next ++ [hop.nodeId] } := by
    have hopen : ¬ w.truncated.isSome = true := by rw [hgoes]; exact Bool.false_ne_true
    rw [pushHop, if_neg hopen, if_neg fun hin => hnew (List.contains_iff_mem.mp hin), if_neg hroom]
  have hall : ∀ {p : ImpactHop → Prop}, (∀ h ∈ w.hops, p h) → p hop → ∀ h ∈ w.hops ++ [hop], p h := by
    intro p hold hlast h hmem
    rcases List.mem_append.mp hmem with hmem | hmem
    · exact hold h hmem
    · exact List.mem_singleton.mp hmem ▸ hlast
  rw [heq]
  refine ⟨⟨fun x => ?_, ?_, hall h.sound.fresh hout.1, hall h.sound.dist hreached, hall h.sound.follows hfollows,
    fun before a after hsplit => ?_⟩, fun x hx => List.mem_cons_of_mem _ (h.near x hx),
    hall h.depth (Nat.le_of_eq hdepth), fun x => ?_⟩
  · rw [List.mem_cons, h.sound.visited, List.map_append, List.mem_append, List.map_singleton, List.mem_singleton]
    exact or_comm.trans or_assoc
  · rw [List.map_append]
    refine List.nodup_append.mpr ⟨h.sound.distinct, List.nodup_singleton _, fun a ha b hb heq => hout.2 ?_⟩
    rw [List.map_singleton, List.mem_singleton] at hb
    exact hb ▸ heq ▸ ha
  · rcases List.eq_nil_or_concat' after with rfl | ⟨after, last, rfl⟩
    · obtain ⟨rfl, hlast⟩ := List.append_inj' hsplit rfl
      cases hlast
      rw [hdepth]
      rcases h.via_of_isDist hdist with ⟨horigin, rfl⟩ | ⟨h', hmem, hid, hlevel⟩
      · exact .inl ⟨horigin, rfl⟩
      · exact .inr ⟨h', hmem, hid, congrArg (· + 1) hlevel⟩
    · rw [← List.cons_append, ← List.append_assoc] at hsplit
      exact h.sound.via before a after (List.append_inj' hsplit rfl).1
  · rw [List.mem_append, h.next, List.mem_singleton]
    constructor
    · rintro (⟨h', hmem, hid, hlevel⟩ | rfl)
      · exact ⟨h', List.mem_append_left _ hmem, hid, hlevel⟩
      · exact ⟨hop, List.mem_append_right _ List.mem_cons_self, rfl, hdepth⟩
    · rintro ⟨h', hmem, hid, hlevel⟩
      rcases List.mem_append.mp hmem with hmem | hmem
      · exact .inl ⟨h', hmem, hid, hlevel⟩
      · exact .inr (List.mem_singleton.mp hmem ▸ hid.symm)

theorem ImpactWalk.Fits.pushHop {tried : List ImpactHop} (h : w.Fits origins edges opts d)
    (hgoes : w.Goes origins edges opts tried) (hdist : IsDist (Impacts opts edges) origins d hop.viaNodeId)
    (hdepth : hop.depth = d + 1) (hfollows : hop.Follows opts edges) :
    (pushHop opts.maxNodes w hop).Fits origins edges opts d ∧
      (pushHop opts.maxNodes w hop).Goes origins edges opts (tried ++ [hop]) := by
  rcases hgoes with ⟨hopen, hvisited⟩ | ⟨hstopped, hincomplete⟩
  · have hcond : ¬ w.truncated.isSome = true := by rw [hopen]; exact Bool.false_ne_true
    have hall : ∀ w' : ImpactWalk, (∀ x ∈ w.visited, x ∈ w'.visited) → hop.nodeId ∈ w'.visited →
        ∀ h ∈ tried ++ [hop], h.nodeId ∈ w'.visited := by
      intro w' hgrows hnew h hmem
      rcases List.mem_append.mp hmem with hmem | hmem
      · exact hgrows _ (hvisited h hmem)
      · exact List.mem_singleton.mp hmem ▸ hnew
    rcases Decidable.em (hop.nodeId ∈ w.visited) with hin | hnew
    · have heq : Haive.pushHop opts.maxNodes w hop = w := by
        rw [Haive.pushHop, if_neg hcond, if_pos (List.contains_iff_mem.mpr hin)]
      rw [heq]
      exact ⟨h, .inl ⟨hopen, hall w (fun _ hx => hx) hin⟩⟩
    · rcases Decidable.em (opts.maxNodes ≤ w.hops.length) with hfull | hroom
      · have heq : Haive.pushHop opts.maxNodes w hop = { w with truncated := some ⟨.nodes, opts.maxNodes⟩ } := by
          rw [Haive.pushHop, if_neg hcond, if_neg fun hin => hnew (List.contains_iff_mem.mp hin), if_pos hfull]
        rw [heq]
        refine ⟨⟨h.sound, h.near, h.depth, h.next⟩,
          .inr ⟨rfl, hop.nodeId, ?_, hnew⟩⟩
        exact reachedFrom_iff.mpr ⟨d + 1, hdist.near.step hfollows.impacts⟩
      · have heq : Haive.pushHop opts.maxNodes w hop = { w with
            visited := hop.nodeId :: w.visited, hops := w.hops ++ [hop], next := w.next ++ [hop.nodeId] } := by
          rw [Haive.pushHop, if_neg hcond, if_neg fun hin => hnew (List.contains_iff_mem.mp hin), if_neg hroom]
        refine ⟨h.push hopen hdist hdepth hfollows hnew hroom, .inl ?_⟩
        rw [heq]
        exact ⟨hopen, hall _ (fun _ hx => List.mem_cons_of_mem _ hx) List.mem_cons_self⟩
  · have heq : Haive.pushHop opts.maxNodes w hop = w := by
      rw [Haive.pushHop, if_pos (by rw [hstopped]; rfl)]
    rw [heq]
    exact ⟨h, .inr ⟨hstopped, hincomplete⟩⟩

theorem pushHops_fits {tried hops : List ImpactHop} (h : w.Fits origins edges opts d)
    (hgoes : w.Goes origins edges opts tried)
    (hhops : ∀ hop ∈ hops, IsDist (Impacts opts edges) origins d hop.viaNodeId ∧ hop.depth = d + 1 ∧ hop.Follows opts edges) :
    (hops.foldl (pushHop opts.maxNodes) w).Fits origins edges opts d ∧
      (hops.foldl (pushHop opts.maxNodes) w).Goes origins edges opts (tried ++ hops) := by
  induction hops generalizing w tried with
  | nil =>
    rw [List.append_nil]
    exact ⟨h, hgoes⟩
  | cons hop hops ih =>
    obtain ⟨hdist, hdepth, hfollows⟩ := hhops hop List.mem_cons_self
    obtain ⟨hfits, hgoes'⟩ := h.pushHop hgoes hdist hdepth hfollows
    have hrest := ih hfits hgoes' fun x hx => hhops x (List.mem_cons_of_mem _ hx)
    rwa [List.append_assoc] at hrest

/-- A level from the nodes at distance `d`. -/
theorem walkLevel_fits (h : ImpactWalk.Fits origins edges opts d { w with next := [] }) (hopen : w.truncated = none)
    (hfrontier : ∀ x, x ∈ frontier ↔ IsDist (Impacts opts edges) origins d x) :
    (walkLevel opts edges (d + 1) frontier w).Fits origins edges opts d ∧
      ((walkLevel opts edges (d + 1) frontier w).truncated = none ∧
          (∀ x, Near (Impacts opts edges) origins (d + 1) x → x ∈ (walkLevel opts edges (d + 1) frontier w).visited) ∨
        (walkLevel opts edges (d + 1) frontier w).truncated = some ⟨.nodes, opts.maxNodes⟩ ∧
          (walkLevel opts edges (d + 1) frontier w).Incomplete origins edges opts) := by
  have hhops : ∀ hop ∈ frontier.flatMap (tries opts edges (d + 1)),
      IsDist (Impacts opts edges) origins d hop.viaNodeId ∧ hop.depth = d + 1 ∧ hop.Follows opts edges := by
    intro hop hmem
    obtain ⟨x, hx, htry⟩ := List.mem_flatMap.mp hmem
    obtain ⟨hdepth, rfl, hfollows⟩ := mem_tries htry
    exact ⟨(hfrontier _).mp hx, hdepth, hfollows⟩
  obtain ⟨hfits, hgoes⟩ := pushHops_fits h (.inl ⟨hopen, fun _ hx => absurd hx List.not_mem_nil⟩) hhops
  refine ⟨hfits, hgoes.imp_left fun ⟨hnone, hvisited⟩ => ⟨hnone, fun x hx => ?_⟩⟩
  rcases near_succ hx with hx | ⟨y, hy, hyx⟩
  · exact hfits.near x hx
  · obtain ⟨hop, htry, rfl⟩ := exists_tries hyx (d + 1)
    exact hvisited hop (List.mem_flatMap.mpr ⟨y, (hfrontier y).mpr hy, htry⟩)

/-! ## All levels -/

/-- A full level makes the next one possible. -/
theorem ImpactWalk.Fits.advance (h : w.Fits origins edges opts d)
    (hnear : ∀ x, Near (Impacts opts edges) origins (d + 1) x → x ∈ w.visited) :
    ImpactWalk.Fits origins edges opts (d + 1) { w with next := [] } where
  sound := h.sound
  near := hnear
  depth := fun a ha => Nat.le_succ_of_le (h.depth a ha)
  next := fun x => iff_of_false List.not_mem_nil fun ⟨a, ha, _, hlevel⟩ => by
    have := h.depth a ha
    omega

/-- The new level are the nodes at the next distance. -/
theorem ImpactWalk.Fits.mem_next (h : w.Fits origins edges opts d)
    (hnear : ∀ x, Near (Impacts opts edges) origins (d + 1) x → x ∈ w.visited) :
    x ∈ w.next ↔ IsDist (Impacts opts edges) origins (d + 1) x := by
  rw [h.next]
  constructor
  · rintro ⟨a, ha, rfl, hlevel⟩
    exact hlevel ▸ h.sound.dist a ha
  · intro hx
    rcases (h.sound.visited x).mp (hnear x hx.near) with horigin | hin
    · exact absurd (near_zero.mpr horigin |>.mono (Nat.zero_le d)) hx.not_near
    · obtain ⟨a, ha, rfl⟩ := List.mem_map.mp hin
      exact ⟨a, ha, rfl, (h.sound.dist a ha).unique hx⟩

structure ImpactWalk.Ends (origins : List String) (edges : List PlanEdgeRecord) (opts : ImpactOptions) (last : Nat)
    (w : ImpactWalk) : Prop where
  sound : SoundHops origins edges opts w.hops w.visited
  whole : w.truncated = none → ∀ x, ReachedFrom (Impacts opts edges) origins x → x ∈ w.visited
  cut : w.truncated ≠ none → w.Incomplete origins edges opts
  depth : ∀ limit, w.truncated = some ⟨.depth, limit⟩ → limit = opts.maxDepth ∧
    (∀ h ∈ w.hops, h.depth ≤ last) ∧ ∀ x, Near (Impacts opts edges) origins last x → x ∈ w.visited

theorem walkLevels_ends (h : ImpactWalk.Fits origins edges opts d { w with next := [] }) (hopen : w.truncated = none)
    (hfrontier : ∀ x, x ∈ frontier ↔ IsDist (Impacts opts edges) origins d x) :
    (walkLevels opts edges left (d + 1) frontier w).Ends origins edges opts (d + left) := by
  induction left generalizing d frontier w with
  | zero =>
    rw [walkLevels]
    split
    · next hmore =>
      obtain ⟨x, hx, y, hxy, hnew⟩ := moreToSee_iff.mp hmore
      have hreached : ReachedFrom (Impacts opts edges) origins y :=
        reachedFrom_iff.mpr ⟨d + 1, ((hfrontier x).mp hx).near.step hxy⟩
      refine ⟨h.sound, nofun, fun _ => ⟨y, hreached, hnew⟩, fun limit hlimit => ?_⟩
      cases hlimit
      refine ⟨rfl, fun a ha => ?_, h.near⟩
      have hle : a.depth ≤ d + 1 := h.depth a ha
      have hne : a.depth ≠ d + 1 := fun heq => List.not_mem_nil ((h.next a.nodeId).mpr ⟨a, ha, rfl, heq⟩)
      omega
    · next hall =>
      refine ⟨h.sound, fun _ x hx => ?_, fun hcut => absurd hopen hcut, fun limit hlimit => ?_⟩
      · obtain ⟨n, hn⟩ := reachedFrom_iff.mp hx
        refine h.near x (near_of_empty (fun y hy => hall ?_) hn)
        obtain ⟨z, hz, hzy⟩ := (near_succ hy.near).resolve_left hy.not_near
        refine moreToSee_iff.mpr ⟨z, (hfrontier z).mpr hz, y, hzy, fun hin => ?_⟩
        rcases (h.sound.visited y).mp hin with horigin | hhop
        · exact hy.not_near ((near_zero.mpr horigin).mono (Nat.zero_le d))
        · obtain ⟨a, ha, rfl⟩ := List.mem_map.mp hhop
          have hlevel := (h.sound.dist a ha).unique hy
          exact List.not_mem_nil ((h.next a.nodeId).mpr ⟨a, ha, rfl, hlevel⟩)
      · rw [hopen] at hlimit
        cases hlimit
  | succ left ih =>
    obtain ⟨hfits, hgoes⟩ := walkLevel_fits h hopen hfrontier
    rw [walkLevels]
    generalize walkLevel opts edges (d + 1) frontier w = w' at hfits hgoes
    rcases hgoes with ⟨hnone, hnear⟩ | ⟨hstopped, hincomplete⟩
    · rw [hnone, Option.isSome_none, Bool.false_or]
      split
      · next hempty =>
        refine ⟨hfits.sound, fun _ x hx => ?_, fun hcut => absurd hnone hcut, fun limit hlimit => ?_⟩
        · obtain ⟨n, hn⟩ := reachedFrom_iff.mp hx
          refine hfits.near x (near_of_empty (fun y hy => ?_) hn)
          have hin := (hfits.mem_next hnear).mpr hy
          rw [List.isEmpty_iff.mp hempty] at hin
          exact List.not_mem_nil hin
        · rw [hnone] at hlimit
          cases hlimit
      · have hrest := ih (hfits.advance hnear) hnone fun x => hfits.mem_next hnear
        rwa [Nat.add_assoc, Nat.add_comm 1 left] at hrest
    · rw [hstopped, Option.isSome_some, Bool.true_or, if_pos rfl]
      refine ⟨hfits.sound, fun hopen' => ?_, fun _ => hincomplete, fun limit hlimit => ?_⟩
      · rw [hstopped] at hopen'
        cases hopen'
      · rw [hstopped] at hlimit
        cases hlimit

/-- The limit is the last level that the walk makes. -/
theorem natCast_le_maxDepth {n : Nat} {q : Rat} (hn : n ≠ 0) : (n : Rat) ≤ q ↔ n ≤ q.floor.toNat := by
  rw [← Rat.intCast_natCast, ← Rat.le_floor_iff]
  omega

theorem exact_impact (origins : List String) (edges : List PlanEdgeRecord) (opts : ImpactOptions) :
    ExactImpact origins edges opts (computeImpact origins edges opts) := by
  have hends : (walkLevels opts edges opts.maxDepth.floor.toNat (0 + 1) origins ⟨[], origins, [], none⟩).Ends origins edges
      opts (0 + opts.maxDepth.floor.toNat) :=
    walkLevels_ends start_fits rfl fun x => ⟨fun hx => isDist_zero hx, fun hx => near_zero.mp hx.near⟩
  rw [Nat.zero_add, Nat.zero_add] at hends
  unfold computeImpact
  generalize walkLevels opts edges opts.maxDepth.floor.toNat 1 origins ⟨[], origins, [], none⟩ = w at hends
  have hvisited : ∀ x, x ∈ w.hops.map (·.nodeId) ↔ x ∉ origins ∧ x ∈ w.visited := fun x => by
    rw [hends.sound.visited]
    constructor
    · intro hx
      obtain ⟨h, hh, rfl⟩ := List.mem_map.mp hx
      exact ⟨hends.sound.fresh h hh, .inr hx⟩
    · exact fun ⟨hout, hx⟩ => hx.resolve_left hout
  have hreached : ∀ x ∈ w.visited, ReachedFrom (Impacts opts edges) origins x := fun x hx => by
    rcases (hends.sound.visited x).mp hx with hx | hx
    · exact ⟨x, hx, .refl⟩
    · obtain ⟨h, hh, rfl⟩ := List.mem_map.mp hx
      exact reachedFrom_iff.mpr ⟨h.depth, (hends.sound.dist h hh).near⟩
  refine ⟨rfl, hends.sound.distinct, hends.sound.fresh, hends.sound.dist, hends.sound.follows, hends.sound.via, ?_, ?_⟩
  · constructor
    · intro hnone x
      exact (hvisited x).trans (and_congr_right fun _ => ⟨hreached x, hends.whole hnone x⟩)
    · intro hall
      refine Classical.byContradiction fun hcut => ?_
      obtain ⟨x, hx, hnew⟩ := hends.cut hcut
      have hout : x ∉ origins := fun hin => hnew ((hends.sound.visited x).mpr (.inl hin))
      exact hnew ((hvisited x).mp ((hall x).mpr ⟨hout, hx⟩)).2
  · intro limit hlimit
    obtain ⟨rfl, hlow, hnear⟩ := hends.depth limit hlimit
    refine ⟨rfl, fun x => ?_⟩
    constructor
    · intro hx
      have hout := ((hvisited x).mp hx).1
      obtain ⟨h, hh, rfl⟩ := List.mem_map.mp hx
      have hdist := hends.sound.dist h hh
      have hpos : h.depth ≠ 0 := fun hzero => hout (near_zero.mp (hzero ▸ hdist.near))
      exact ⟨hout, h.depth, hdist, (natCast_le_maxDepth hpos).mpr (hlow h hh)⟩
    · rintro ⟨hout, n, hdist, hle⟩
      have hpos : n ≠ 0 := fun hzero => hout (near_zero.mp (hzero ▸ hdist.near))
      exact (hvisited x).mpr ⟨hout, hnear x (hdist.near.mono ((natCast_le_maxDepth hpos).mp hle))⟩

end Haive

import Haive.Mirror.Reports
import Haive.Mirror.Render

/-!
# Payloads that cannot speak about code links

A schema-v1 `plan.json` has no code links. `mergePlanMirror` reads a v1 incoming side
as if it had local's; a v1 local side it reads as if it had none, and so every code
link that the other two have in common counts as deleted by local.
`old_schema_keeps_links_iff` says exactly when no link is lost that way, for the merge
itself and for `mergeStages` of `worker/src/plan/projection-merge.ts`, which merges the
three stages of an unmerged `plan.json`.
-/

namespace Haive

open Lib

/-! ## `planMirrorPayloadSchema` -/

def MirrorNodeV1.trimmed (n : MirrorNodeV1) : MirrorNodeV1 :=
  { n with toMirrorNode := n.toMirrorNode.trimmed }

namespace PlanMirrorPayload

def trimmed : PlanMirrorPayload → PlanMirrorPayload
  | .v1 nodes edges => .v1 (nodes.map (·.trimmed)) edges
  | .v2 mirror => .v2 mirror.trimmed

def allowed : PlanMirrorPayload → Bool
  | .v1 nodes edges =>
    1 ≤ nodes.length && nodes.length ≤ 20000 && edges.length ≤ 100000 &&
      nodes.all (·.toMirrorNode.allowed) && edges.all (·.allowed)
  | .v2 mirror => mirror.allowed

def schemaVersion : PlanMirrorPayload → Nat
  | .v1 _ _ => 1
  | .v2 _ => 2

end PlanMirrorPayload

/-- `planMirrorPayloadSchema.safeParse`. -/
def parsePayload (payload : PlanMirrorPayload) : Option PlanMirrorPayload :=
  if payload.trimmed.allowed then some payload.trimmed else none

/-! ## The stages of an unmerged `plan.json` -/

/-- The bytes git holds for the path: 1 base, 2 ours, 3 theirs. -/
structure Stages (β : Type) where
  base : Option β
  ours : β
  theirs : β

/-- Why `mergeStages` leaves the path unmerged. -/
inductive StageRefusal
  /-- `a side of plan.json does not parse`. -/
  | unparsed
  /-- `the two plan.json files have different roots`. -/
  | differentRoots
  /-- `the merged plan is not a single tree`. -/
  | notOneTree
  /-- `the plans could not be merged (…)`. -/
  | notMerged
deriving DecidableEq, Repr

def rootsOf (nodes : List MirrorNode) : List String :=
  (nodes.filter (·.parentId.isNone)).map (·.id)

/-- The `wellFormed` of `projection-merge.ts`. -/
def isSingleTree (mirror : PlanMirror) : Bool :=
  (mirror.nodes.map (·.id)).dedup.length = mirror.nodes.length && (rootsOf mirror.nodes).length = 1 &&
    mirror.nodes.all fun n => n.parentId.all (· ∈ mirror.nodes.map (·.id))

section
variable {β : Type} (decode : β → Option PlanMirrorPayload)

/-- The payloads of the stages. `decode` is `JSON.parse` and the shape that the schema asks for. -/
def parseStages (stages : Stages β) :
    Option (Option PlanMirrorPayload × PlanMirrorPayload × PlanMirrorPayload) := do
  let ours ← (decode stages.ours).bind parsePayload
  let theirs ← (decode stages.theirs).bind parsePayload
  match stages.base with
  | none => return (none, ours, theirs)
  | some bytes => return (some (← (decode bytes).bind parsePayload), ours, theirs)

def mergeStages (stages : Stages β) : Except StageRefusal PlanMirror :=
  match parseStages decode stages with
  | none => .error .unparsed
  | some (base, ours, theirs) =>
    if (rootsOf ours.nodes).length ≠ 1 ∨ (rootsOf theirs.nodes).length ≠ 1 ∨
        (rootsOf ours.nodes).head? ≠ (rootsOf theirs.nodes).head? then
      .error .differentRoots
    else
      match mergePlanMirror base ours theirs with
      | .error _ => .error .notMerged
      | .ok m =>
        match parseMirror m.merged with
        | none => .error .notMerged
        | some merged => if isSingleTree merged then .ok merged else .error .notOneTree

end

/-! ## Trimmed payloads -/

theorem MirrorCodeLink.trimmed_trimmed (l : MirrorCodeLink) : l.trimmed.trimmed = l.trimmed := by
  simp only [MirrorCodeLink.trimmed, trim_trim, Option.map_map, MirrorCodeLink.mk.injEq, true_and, and_true]
  refine congrArg (fun f => l.symbol.map f) (funext fun s => ?_)
  exact trim_trim s

theorem trimmed_of_parsePayload {payload parsed : PlanMirrorPayload}
    (h : parsePayload payload = some parsed) : ∀ l ∈ parsed.codeLinks, l.trimmed = l := by
  obtain ⟨_, h⟩ := Option.ite_none_right_eq_some.mp h
  cases h
  cases payload with
  | v1 nodes edges => exact fun _ hl => absurd hl List.not_mem_nil
  | v2 mirror =>
    intro l hl
    obtain ⟨k, _, rfl⟩ := List.mem_map.mp hl
    exact k.trimmed_trimmed

/-! ## Lost links -/

def KeepsLinks (links : List MirrorCodeLink) (merged : PlanMirror) : Prop :=
  ∀ l ∈ links, l.nodeId ∈ merged.nodes.map (·.id) → l ∈ merged.codeLinks

/-- The base has the link, and nothing about it was modified since. -/
def Inherited (base : Option PlanMirrorPayload) (l : MirrorCodeLink) : Prop :=
  ∃ payload ∈ base, ∃ b ∈ payload.codeLinks, b.key = l.key ∧ ∀ f, linkFields.get f l = linkFields.get f b

def OldLocalHarmless (base : Option PlanMirrorPayload) : PlanMirrorPayload → PlanMirrorPayload → Prop
  | .v2 _, _ => True
  | .v1 nodes edges, incomingPayload =>
    ∀ l ∈ incomingPayload.codeLinks,
      NodeStays (base.map readSide) (readSide (.v1 nodes edges))
        (readIncoming (readSide (.v1 nodes edges)) incomingPayload) l.nodeId →
      ¬ Inherited base l

namespace Keyed

variable {T F K : Type} [DecidableEq K] (kd : Keyed T F K) {base : Option (List T)} {items incoming : List T}

/-- An item that both sides have in the same form is merged in that form. -/
theorem mem_mergeKeyed_same (hitems : (items.map kd.key).Nodup) {x : T} (hx : x ∈ items) :
    x ∈ (kd.mergeKeyed (base.map .ofList) (.ofList items) (.ofList items)).1 := by
  have hfind : (Table.ofList items : Table T kd.key).find? (kd.key x) = some x :=
    (Table.find?_ofList hitems).mpr ⟨hx, rfl⟩
  rw [mem_mergeKeyed, mergeKey, hfind]
  cases base with
  | none => exact List.mem_singleton_self x
  | some b =>
    have hvalue : ∀ b f, (kd.pickField b x x f).value = kd.fields.get f x := by
      intro b f
      simp [pickField, pick3]
    simp only [Option.map_some, mergeItem, hvalue, List.mem_singleton]
    exact (kd.fields.setAll_get _ _).symm

omit [DecidableEq K] in
theorem eq_of_mem_onlyItem {b : Option T} {only x : T} {deletedBy : SideName}
    (h : x ∈ (kd.onlyItem b only deletedBy).1) : x = only := by
  unfold onlyItem at h
  split at h
  · exact List.mem_singleton.mp h
  · split at h
    · exact List.mem_singleton.mp h
    · cases h

theorem mem_mergeKeyed_incoming (hb : ∀ items ∈ base, (items.map kd.key).Nodup)
    (hi : (incoming.map kd.key).Nodup) {x : T} (hx : x ∈ incoming) :
    x ∈ (kd.mergeKeyed (base.map .ofList) (.ofList []) (.ofList incoming)).1 ↔
      ¬ ∃ items ∈ base, ∃ b ∈ items, kd.key b = kd.key x ∧ ∀ f, kd.fields.get f x = kd.fields.get f b := by
  have hin : (Table.ofList incoming : Table T kd.key).find? (kd.key x) = some x :=
    (Table.find?_ofList hi).mpr ⟨hx, rfl⟩
  have hln : (Table.ofList [] : Table T kd.key).find? (kd.key x) = none := Table.find?_empty _
  rw [mem_mergeKeyed, mergeKey, hin, hln]
  cases base with
  | none => simp [onlyItem]
  | some items =>
    cases hbx : (Table.ofList items : Table T kd.key).find? (kd.key x) with
    | none =>
      have hno := Table.find?_eq_none.mp hbx
      simp only [Option.map_some, Option.bind_some, hbx, onlyItem, List.mem_singleton, true_iff]
      rintro ⟨_, hitems, b, hbm, hkey, _⟩
      cases Option.mem_some_iff.mp hitems
      exact hno (Table.mem_keys_ofList.mpr (hkey ▸ List.mem_map_of_mem hbm))
    | some b =>
      obtain ⟨hbm, hkey⟩ := (Table.find?_ofList (hb items rfl)).mp hbx
      have hiff : (∃ items' ∈ some items, ∃ b ∈ items', kd.key b = kd.key x ∧
          ∀ f, kd.fields.get f x = kd.fields.get f b) ↔ ∀ f, kd.fields.get f x = kd.fields.get f b := by
        constructor
        · rintro ⟨_, hitems, b', hbm', hkey', hsame⟩
          cases Option.mem_some_iff.mp hitems
          rwa [List.inj_on_of_nodup_map (hb items rfl) hbm' hbm (hkey'.trans hkey.symm)] at hsame
        · intro hsame
          exact ⟨items, rfl, b, hbm, hkey, hsame⟩
      rw [hiff, not_forall, ← kd.differ_iff]
      simp only [Option.map_some, Option.bind_some, hbx, onlyItem]
      split <;> simp_all

end Keyed

section
variable {base : Option PlanMirrorPayload} {localPayload incomingPayload : PlanMirrorPayload}

theorem readSide_codeLinks (base : Option PlanMirrorPayload) :
    (base.map readSide).map linkMap = (base.map PlanMirrorPayload.codeLinks).map .ofList := by
  cases base <;> rfl

theorem mem_mergedLinks_iff (hb : ∀ payload ∈ base, WellFormed payload) (hl : WellFormed localPayload)
    (hi : WellFormed incomingPayload) (hversions : localPayload.schemaVersion ≠ incomingPayload.schemaVersion)
    {l : MirrorCodeLink} (hlink : l ∈ localPayload.codeLinks ++ incomingPayload.codeLinks) :
    l ∈ (mergedLinks (base.map readSide) (readSide localPayload)
        (readIncoming (readSide localPayload) incomingPayload)).1 ↔
      localPayload.schemaVersion = 1 → ¬ Inherited base l := by
  rw [mergedLinks, readSide_codeLinks]
  cases localPayload with
  | v2 mirror =>
    cases incomingPayload with
    | v2 _ => exact absurd rfl hversions
    | v1 nodes edges =>
      have hlink : l ∈ mirror.codeLinks := by simpa [PlanMirrorPayload.codeLinks] using hlink
      refine iff_of_true ?_ (fun hv => by cases hv)
      exact linkKeyed.mem_mergeKeyed_same hl.linkKeys hlink
  | v1 nodes edges =>
    cases incomingPayload with
    | v1 _ _ => exact absurd rfl hversions
    | v2 mirror =>
      have hlink : l ∈ mirror.codeLinks := by simpa [PlanMirrorPayload.codeLinks] using hlink
      have hv : (PlanMirrorPayload.v1 nodes edges).schemaVersion = 1 := rfl
      rw [forall_prop_of_true hv]
      have hkeys : ∀ items ∈ base.map PlanMirrorPayload.codeLinks, (items.map linkKeyed.key).Nodup := by
        intro items hitems
        obtain ⟨payload, hpayload, rfl⟩ := Option.map_eq_some_iff.mp hitems
        exact (hb payload hpayload).linkKeys
      refine (linkKeyed.mem_mergeKeyed_incoming hkeys hi.linkKeys hlink).trans (not_congr ?_)
      rw [Inherited]
      cases base <;> simp [linkKeyed]

theorem keepsLinks_iff (hb : ∀ payload ∈ base, WellFormed payload) (hl : WellFormed localPayload)
    (hi : WellFormed incomingPayload) (hversions : localPayload.schemaVersion ≠ incomingPayload.schemaVersion)
    {m : PlanMirrorMerge} (hm : mergePlanMirror base localPayload incomingPayload = .ok m) :
    KeepsLinks (localPayload.codeLinks ++ incomingPayload.codeLinks) m.merged ↔
      OldLocalHarmless base localPayload incomingPayload := by
  obtain ⟨rewired, broken, kept, m', hok, hrun⟩ := mergePlanMirror_run base hl hi
  cases hm.symm.trans hok
  have hstays := hrun.nodeStays_iff (readSide_tree hl) (readIncoming_tree hi _)
  have hmem := @mem_mergedLinks_iff base localPayload incomingPayload hb hl hi hversions
  have hkeep : KeepsLinks (localPayload.codeLinks ++ incomingPayload.codeLinks) m.merged ↔
      ∀ l ∈ localPayload.codeLinks ++ incomingPayload.codeLinks,
        l.nodeId ∈ m.merged.nodes.map (·.id) → localPayload.schemaVersion = 1 → ¬ Inherited base l := by
    refine forall₃_congr fun l hlink hlive => ?_
    rw [hrun.links, List.mem_filter, decide_eq_true_eq, ← hmem hlink, and_iff_left hlive]
  rw [hkeep]
  cases localPayload with
  | v2 mirror => exact iff_of_true (fun _ _ _ hv => by cases hv) trivial
  | v1 nodes edges =>
    rw [OldLocalHarmless]
    refine forall₂_congr fun l _ => ?_
    rw [hstays]
    exact ⟨fun h hlive => h hlive rfl, fun h hlive _ => h hlive⟩

/-- Every merged link is a link of one of the sides, up to the fields that the merge decides. -/
theorem mem_mergedLinks_source {base : Option Side} {localSide incoming : Side} {l : MirrorCodeLink}
    (h : l ∈ (mergedLinks base localSide incoming).1) :
    ∃ k ∈ localSide.links ++ incoming.links, l.repoPath = k.repoPath ∧ l.symbol = k.symbol := by
  rw [mergedLinks, Keyed.mem_mergeKeyed, Keyed.mergeKey] at h
  have hmem : ∀ {items : List MirrorCodeLink} {key : String × String × String} {k : MirrorCodeLink},
      (Table.ofList items : Table MirrorCodeLink linkKeyed.key).find? key = some k → k ∈ items :=
    fun hk => Table.mem_of_mem_ofList (Table.find?_mem hk)
  split at h
  · next k i hk hi =>
    refine ⟨i, List.mem_append_right _ (hmem hi), ?_⟩
    split at h
    · rw [List.mem_singleton] at h
      exact h ▸ ⟨rfl, rfl⟩
    · rw [List.mem_singleton] at h
      rw [h]
      exact ⟨linkFields.setAll_invariant (·.repoPath) (by intro f; cases f <;> intros <;> rfl) _ _ _,
        linkFields.setAll_invariant (·.symbol) (by intro f; cases f <;> intros <;> rfl) _ _ _⟩
  · next k hk hi =>
    exact ⟨k, List.mem_append_left _ (hmem hk), linkKeyed.eq_of_mem_onlyItem h ▸ ⟨rfl, rfl⟩⟩
  · next i hk hi =>
    exact ⟨i, List.mem_append_right _ (hmem hi), linkKeyed.eq_of_mem_onlyItem h ▸ ⟨rfl, rfl⟩⟩
  · cases h

/-- `mergeStages` stores the merged payload as it is: the links of parsed stages are trimmed already. -/
theorem mergeStages_eq_ok {β : Type} {decode : β → Option PlanMirrorPayload} {stages : Stages β}
    {merged : PlanMirror} (hparse : parseStages decode stages = some (base, localPayload, incomingPayload))
    (h : mergeStages decode stages = .ok merged) :
    ∃ m, mergePlanMirror base localPayload incomingPayload = .ok m ∧ m.merged.trimmed = merged := by
  rw [mergeStages, hparse] at h
  simp only at h
  split at h
  · cases h
  · split at h
    · cases h
    · next m hm =>
      split at h
      · cases h
      · next parsed hparsed =>
        obtain ⟨_, htrim⟩ := Option.ite_none_right_eq_some.mp hparsed
        split at h
        · cases h
          exact ⟨m, hm, Option.some.inj htrim⟩
        · cases h

theorem parseStages_trimmed {β : Type} {decode : β → Option PlanMirrorPayload} {stages : Stages β}
    (hparse : parseStages decode stages = some (base, localPayload, incomingPayload)) :
    ∀ l ∈ localPayload.codeLinks ++ incomingPayload.codeLinks, l.trimmed = l := by
  have hsides : (decode stages.ours).bind parsePayload = some localPayload ∧
      (decode stages.theirs).bind parsePayload = some incomingPayload := by
    simp only [parseStages, Option.bind_eq_bind, Option.bind_eq_some_iff, Option.pure_def] at hparse
    obtain ⟨ours, hours, theirs, htheirs, hrest⟩ := hparse
    split at hrest
    · cases hrest
      exact ⟨Option.bind_eq_some_iff.mpr hours, Option.bind_eq_some_iff.mpr htheirs⟩
    · obtain ⟨_, _, hrest⟩ := Option.bind_eq_some_iff.mp hrest
      cases hrest
      exact ⟨Option.bind_eq_some_iff.mpr hours, Option.bind_eq_some_iff.mpr htheirs⟩
  obtain ⟨_, _, hours⟩ := Option.bind_eq_some_iff.mp hsides.1
  obtain ⟨_, _, htheirs⟩ := Option.bind_eq_some_iff.mp hsides.2
  intro l hl
  rcases List.mem_append.mp hl with hl | hl
  · exact trimmed_of_parsePayload hours l hl
  · exact trimmed_of_parsePayload htheirs l hl

theorem readIncoming_links (localPayload incomingPayload : PlanMirrorPayload) :
    ∀ l ∈ (readSide localPayload).links ++ (readIncoming (readSide localPayload) incomingPayload).links,
      l ∈ localPayload.codeLinks ++ incomingPayload.codeLinks := by
  intro l hl
  rcases List.mem_append.mp hl with hl | hl
  · exact List.mem_append_left _ hl
  · cases incomingPayload with
    | v1 nodes edges => exact List.mem_append_left _ hl
    | v2 mirror => exact List.mem_append_right _ hl

/-- Trimming a payload whose links are trimmed loses no link and finds none. -/
theorem keepsLinks_trimmed {links : List MirrorCodeLink} {merged : PlanMirror}
    (h : ∀ l ∈ merged.codeLinks, l.trimmed = l) : KeepsLinks links merged.trimmed ↔ KeepsLinks links merged := by
  have hids : merged.trimmed.nodes.map (·.id) = merged.nodes.map (·.id) := by
    rw [PlanMirror.trimmed, List.map_map]
    rfl
  have hlinks : merged.trimmed.codeLinks = merged.codeLinks :=
    (List.map_congr_left h).trans (List.map_id _)
  rw [KeepsLinks, KeepsLinks, hids, hlinks]

end

/-! ## Samples -/

/-- A root with a child that one file implements. -/
def staleSketch (stale : Bool) : PlanMirror :=
  { sketch [("r", none, 0), ("a", some "r", 0)] with
    codeLinks := [⟨"a", "a.ts", none, none, none, stale, .implements⟩] }

def oldSketch : PlanMirrorPayload :=
  .v1 ((sketch [("r", none, 0), ("a", some "r", 0)]).nodes.map fun n => ⟨n, .user⟩) []

end Haive

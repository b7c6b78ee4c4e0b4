import Haive.Plan.Writes
import Haive.Lib.Parent

/-!
# Trees of materialised paths

A `Spot` is where a node is: its parent and its path. `Planted` is the local form
of the tree invariant: every path is the parent's path and the id. It comes with
one lemma for each thing that a statement can do to the spots: a new leaf, a
subtree's prefix rewritten, a node moved, subtrees deleted.

While a move is half done the children of the moved node are ahead of it: they
carry the prefix it is about to get. `odd p a pref` says that the child `a` of `p`
may do so; `Settled` is `Planted` without such children.

`settled_iff_planTree` relates the local form to the global one, which is stated
on the rows: paths list the ids from the root, and parents do not form a cycle.
-/

namespace Haive

open Lib

structure Spot where
  parentId : Option Uuid
  path : String
deriving DecidableEq

abbrev Spots := Uuid → Option Spot

def PlanNodeRow.spot (r : PlanNodeRow) : Spot := ⟨r.parentId, r.path⟩

def PlanDb.spots (db : PlanDb) : Spots := fun id => (db.nodes.find? id).map (·.spot)

/-- The spot after a subtree's prefix was rewritten. -/
def Spot.rewrite (oldPrefix newPrefix : String) (s : Spot) : Spot :=
  if isBelow oldPrefix s.path then { s with path := sqlRewritePath oldPrefix newPrefix s.path } else s

theorem Spot.rewrite_parentId (oldPrefix newPrefix : String) (s : Spot) :
    (s.rewrite oldPrefix newPrefix).parentId = s.parentId := by
  unfold Spot.rewrite
  split <;> rfl

theorem Spot.rewrite_of_not_below {oldPrefix newPrefix : String} {s : Spot}
    (h : isBelow oldPrefix s.path = false) : s.rewrite oldPrefix newPrefix = s := by
  simp [Spot.rewrite, h]

/-- Slash-terminated, and of plain characters. -/
def GoodPath (path : String) : Prop := EndsSlash path ∧ PlainPath path

structure Planted (odd : Uuid → Uuid → String → Prop) (f : Spots) : Prop where
  oneRoot : ∀ {a b s t}, f a = some s → f b = some t → s.parentId = none → t.parentId = none → a = b
  root : ∀ {a s}, f a = some s → s.parentId = none → s.path = planNodePath none a
  child : ∀ {a s p}, f a = some s → s.parentId = some p → ∃ t, f p = some t ∧
    (s.path = planNodePath (some t.path) a ∨ ∃ pref, odd p a pref ∧ s.path = planNodePath (some pref) a)
  good : ∀ {p a pref}, odd p a pref → GoodPath pref

/-- No child is ahead of its parent. -/
def Settled (f : Spots) : Prop := Planted (fun _ _ _ => False) f

def Names (id : Uuid) (path : String) : Prop :=
  ∃ q : Option String, EndsSlash (q.getD "/") ∧ path = planNodePath q id

theorem endsSlash_root : EndsSlash ((none : Option String).getD "/") := by
  unfold EndsSlash
  decide

theorem Names.endsSlash {id : Uuid} {path : String} (h : Names id path) : EndsSlash path := by
  obtain ⟨q, _, rfl⟩ := h
  exact endsSlash_planNodePath q id

theorem Names.unique {a b : Uuid} {path : String} (ha : Names a path) (hb : Names b path) : a = b := by
  obtain ⟨p, hp, rfl⟩ := ha
  obtain ⟨q, hq, heq⟩ := hb
  exact (planNodePath_injective hp hq heq).1

namespace Planted

variable {odd odd' : Uuid → Uuid → String → Prop} {f f' : Spots}

/-! ## Paths of a planted tree -/

theorem goodPath (h : Planted odd f) {a : Uuid} {s : Spot} (ha : f a = some s) : GoodPath s.path := by
  induction hn : s.path.toList.length using Nat.strong_induction_on generalizing a s with
  | _ n ih =>
    cases hp : s.parentId with
    | none =>
      rw [h.root ha hp]
      exact ⟨endsSlash_planNodePath _ _, plain_planNodePath a fun p hp => nomatch hp⟩
    | some p =>
      obtain ⟨t, ht, hpath | ⟨pref, hodd, hpath⟩⟩ := h.child ha hp
      · have hlt : t.path.toList.length < n := by
          rw [← hn, hpath]
          exact length_planNodePath_lt t.path a
        have hgood := ih _ hlt ht rfl
        rw [hpath]
        refine ⟨endsSlash_planNodePath _ _, plain_planNodePath a ?_⟩
        rintro _ ⟨⟩
        exact hgood.2
      · rw [hpath]
        refine ⟨endsSlash_planNodePath _ _, plain_planNodePath a ?_⟩
        rintro _ ⟨⟩
        exact (h.good hodd).2

theorem names (h : Planted odd f) {a : Uuid} {s : Spot} (ha : f a = some s) : Names a s.path := by
  cases hp : s.parentId with
  | none => exact ⟨none, endsSlash_root, h.root ha hp⟩
  | some p =>
    obtain ⟨t, ht, hpath | ⟨pref, hodd, hpath⟩⟩ := h.child ha hp
    · exact ⟨some t.path, (h.goodPath ht).1, hpath⟩
    · exact ⟨some pref, (h.good hodd).1, hpath⟩

/-! ## Changes -/

/-- Fewer children may be ahead, if none of those that are no longer allowed is. -/
theorem weaken (h : Planted odd f) (hgood : ∀ {p a pref}, odd' p a pref → GoodPath pref)
    (hodd : ∀ {p a s t pref}, f a = some s → s.parentId = some p → f p = some t → odd p a pref →
      s.path = planNodePath (some pref) a → odd' p a pref ∨ s.path = planNodePath (some t.path) a) :
    Planted odd' f where
  oneRoot := h.oneRoot
  root := h.root
  child := by
    intro a s p ha hp
    obtain ⟨t, ht, hpath | ⟨pref, ho, hpath⟩⟩ := h.child ha hp
    · exact ⟨t, ht, .inl hpath⟩
    · rcases hodd ha hp ht ho hpath with ho' | hpath'
      · exact ⟨t, ht, .inr ⟨pref, ho', hpath⟩⟩
      · exact ⟨t, ht, .inl hpath'⟩
  good := hgood

/-- A new leaf. -/
theorem insert (h : Planted odd f) {a : Uuid} {s : Spot} (hnew : f a = none)
    (hroot : s.parentId = none →
      s.path = planNodePath none a ∧ ∀ b t, f b = some t → t.parentId ≠ none)
    (hchild : ∀ p, s.parentId = some p → ∃ t, f p = some t ∧ s.path = planNodePath (some t.path) a) :
    Planted odd (Function.update f a (some s)) where
  oneRoot := by
    intro b c t u hb hc ht hu
    by_cases hba : b = a <;> by_cases hca : c = a
    · rw [hba, hca]
    · subst hba
      rw [Function.update_self, Option.some.injEq] at hb
      rw [Function.update_of_ne hca] at hc
      exact absurd hu ((hroot (hb ▸ ht)).2 c u hc)
    · subst hca
      rw [Function.update_self, Option.some.injEq] at hc
      rw [Function.update_of_ne hba] at hb
      exact absurd ht ((hroot (hc ▸ hu)).2 b t hb)
    · rw [Function.update_of_ne hba] at hb
      rw [Function.update_of_ne hca] at hc
      exact h.oneRoot hb hc ht hu
  root := by
    intro b t hb ht
    by_cases hba : b = a
    · subst hba
      rw [Function.update_self, Option.some.injEq] at hb
      subst hb
      exact (hroot ht).1
    · rw [Function.update_of_ne hba] at hb
      exact h.root hb ht
  child := by
    intro b t p hb ht
    -- The parent was there before, so it is not the new leaf.
    have hold : ∀ {u}, f p = some u → Function.update f a (some s) p = some u := by
      intro u hu
      rw [Function.update_of_ne]
      · exact hu
      · rintro rfl
        rw [hnew] at hu
        cases hu
    by_cases hba : b = a
    · subst hba
      rw [Function.update_self, Option.some.injEq] at hb
      subst hb
      obtain ⟨u, hu, hpath⟩ := hchild p ht
      exact ⟨u, hold hu, .inl hpath⟩
    · rw [Function.update_of_ne hba] at hb
      obtain ⟨u, hu, hpath⟩ := h.child hb ht
      exact ⟨u, hold hu, hpath⟩
  good := h.good

/-- Whole subtrees deleted. -/
theorem delete (h : Planted odd f) {d : Uuid → Prop}
    (hgone : ∀ a, d a → f' a = none) (hkept : ∀ a, ¬ d a → f' a = f a)
    (hclosed : ∀ {a s p}, f a = some s → s.parentId = some p → d p → d a) :
    Planted odd f' := by
  have hof : ∀ {a s}, f' a = some s → ¬ d a ∧ f a = some s := by
    intro a s ha
    by_cases hd : d a
    · rw [hgone a hd] at ha
      cases ha
    · exact ⟨hd, hkept a hd ▸ ha⟩
  constructor
  · exact fun ha hb => h.oneRoot (hof ha).2 (hof hb).2
  · exact fun ha => h.root (hof ha).2
  · intro a s p ha hp
    obtain ⟨hlive, ha⟩ := hof ha
    obtain ⟨t, ht, hpath⟩ := h.child ha hp
    exact ⟨t, (hkept p fun hd => hlive (hclosed ha hp hd)).trans ht, hpath⟩
  · exact h.good

/-- The prefix of a subtree rewritten, all of it at once. The children of its root `m` are then ahead
of `m`. -/
theorem rewrite (h : Planted odd f) {m : Uuid} {oldPrefix newPrefix : String} (hold : Names m oldPrefix)
    (hodd : ∀ {p a s pref}, odd p a pref → f a = some s → isBelow oldPrefix s.path = false)
    (hgood : ∀ {p a pref}, odd' p a pref → GoodPath pref)
    (hkeep : ∀ {p a pref}, odd p a pref → odd' p a pref)
    (hahead : ∀ {a s}, f a = some s → s.parentId = some m → isBelow oldPrefix s.path = true →
      odd' m a newPrefix) :
    Planted odd' (fun a => (f a).map (Spot.rewrite oldPrefix newPrefix)) where
  oneRoot := by
    intro a b s' t' ha' hb' hs ht
    obtain ⟨s, ha, rfl⟩ := Option.map_eq_some_iff.mp ha'
    obtain ⟨t, hb, rfl⟩ := Option.map_eq_some_iff.mp hb'
    rw [Spot.rewrite_parentId] at hs ht
    exact h.oneRoot ha hb hs ht
  root := by
    intro a s' ha' hs
    obtain ⟨s, ha, rfl⟩ := Option.map_eq_some_iff.mp ha'
    rw [Spot.rewrite_parentId] at hs
    obtain ⟨q, hq, rfl⟩ := hold
    have hpath := h.root ha hs
    rw [Spot.rewrite_of_not_below]
    · exact hpath
    · rw [hpath]
      exact not_isBelow_root hq
  child := by
    intro a s' p ha' hp
    obtain ⟨s, ha, rfl⟩ := Option.map_eq_some_iff.mp ha'
    rw [Spot.rewrite_parentId] at hp
    obtain ⟨t, ht, hpath | ⟨pref, ho, hpath⟩⟩ := h.child ha hp
    · refine ⟨t.rewrite oldPrefix newPrefix, by rw [ht]; rfl, ?_⟩
      have hbelow := @isBelow_planNodePath_iff _ t.path a hold.endsSlash
      rw [← hpath] at hbelow
      by_cases hs : isBelow oldPrefix s.path = true
      · rw [Spot.rewrite, if_pos hs]
        rcases hbelow.mp hs with hroot | ht'
        · -- A child of the subtree's root.
          have hm : p = m := Names.unique (h.names ht) (hroot ▸ hold)
          refine .inr ⟨newPrefix, hm ▸ hahead ha (hm ▸ hp) hs, ?_⟩
          show sqlRewritePath oldPrefix newPrefix s.path = _
          rw [hpath, hroot, rewrite_planNodePath a (List.prefix_refl _), rewrite_self]
        · refine .inl ?_
          show sqlRewritePath oldPrefix newPrefix s.path = _
          rw [Spot.rewrite, if_pos ht', hpath, rewrite_planNodePath a (isBelow_iff.mp ht').1]
      · have hs' : isBelow oldPrefix s.path = false := by simpa using hs
        have ht' : isBelow oldPrefix t.path = false := by
          rw [Bool.eq_false_iff]
          exact fun ht' => hs (hbelow.mpr (.inr ht'))
        rw [Spot.rewrite_of_not_below hs', Spot.rewrite_of_not_below ht']
        exact .inl hpath
    · refine ⟨t.rewrite oldPrefix newPrefix, by rw [ht]; rfl, .inr ⟨pref, hkeep ho, ?_⟩⟩
      rw [Spot.rewrite_of_not_below (hodd ho ha)]
      exact hpath
  good := hgood

/-- A node's own row moved, once all of its children are ahead of it. -/
theorem move (h : Planted odd f) {m p : Uuid} {s t : Spot} {newPrefix : String} (hm : f m = some s)
    (hp : f p = some t) (hne : p ≠ m) (hpath : newPrefix = planNodePath (some t.path) m)
    (hahead : ∀ {a u}, f a = some u → u.parentId = some m → u.path = planNodePath (some newPrefix) a)
    (hgood : ∀ {p a pref}, odd' p a pref → GoodPath pref)
    (hkeep : ∀ {p a pref}, odd p a pref → p ≠ m → odd' p a pref) :
    Planted odd' (Function.update f m (some ⟨some p, newPrefix⟩)) where
  oneRoot := by
    intro a b u v ha hb hu hv
    have hold : ∀ {c w}, Function.update f m (some ⟨some p, newPrefix⟩) c = some w →
        w.parentId = none → f c = some w := by
      intro c w hc hw
      by_cases hcm : c = m
      · subst hcm
        rw [Function.update_self, Option.some.injEq] at hc
        subst hc
        cases hw
      · rwa [Function.update_of_ne hcm] at hc
    exact h.oneRoot (hold ha hu) (hold hb hv) hu hv
  root := by
    intro a u ha hu
    by_cases ham : a = m
    · subst ham
      rw [Function.update_self, Option.some.injEq] at ha
      subst ha
      cases hu
    · rw [Function.update_of_ne ham] at ha
      exact h.root ha hu
  child := by
    intro a u q ha hq
    by_cases ham : a = m
    · subst ham
      rw [Function.update_self, Option.some.injEq] at ha
      subst ha
      cases hq
      exact ⟨t, by rw [Function.update_of_ne hne]; exact hp, .inl hpath⟩
    · rw [Function.update_of_ne ham] at ha
      by_cases hqm : q = m
      · subst hqm
        exact ⟨⟨some p, newPrefix⟩, by rw [Function.update_self], .inl (hahead ha hq)⟩
      · obtain ⟨v, hv, hpath' | ⟨pref, ho, hpath'⟩⟩ := h.child ha hq
        · exact ⟨v, by rw [Function.update_of_ne hqm]; exact hv, .inl hpath'⟩
        · exact ⟨v, by rw [Function.update_of_ne hqm]; exact hv, .inr ⟨pref, hkeep ho hqm, hpath'⟩⟩
  good := hgood

end Planted

theorem settled_empty : Settled (fun _ => none) where
  oneRoot h := nomatch h
  root h := nomatch h
  child h := nomatch h
  good h := h.elim

theorem Settled.child {f : Spots} (h : Settled f) {a p : Uuid} {s : Spot} (ha : f a = some s)
    (hp : s.parentId = some p) : ∃ t, f p = some t ∧ s.path = planNodePath (some t.path) a := by
  obtain ⟨t, ht, hpath | ⟨_, ho, _⟩⟩ := Planted.child h ha hp
  · exact ⟨t, ht, hpath⟩
  · exact ho.elim

/-! ## The invariant on the rows -/

def pathOf (ids : List Uuid) : String := ids.foldl (fun path id => path ++ id.text ++ "/") "/"

inductive Lineage (nodes : Table PlanNodeRow (·.id)) : Uuid → List Uuid → Prop
  | root {id : Uuid} {r : PlanNodeRow} : nodes.find? id = some r → r.parentId = none → Lineage nodes id [id]
  | child {id p : Uuid} {r : PlanNodeRow} {ids : List Uuid} : nodes.find? id = some r →
      r.parentId = some p → Lineage nodes p ids → Lineage nodes id (ids ++ [id])

/-- The plan is a tree, and the paths say so. -/
structure PlanTree (db : PlanDb) : Prop where
  oneRoot : ∀ r ∈ db.nodes.rows, ∀ r' ∈ db.nodes.rows, r.parentId = none → r'.parentId = none → r = r'
  parentLive : ∀ r ∈ db.nodes.rows, ∀ p, r.parentId = some p → p ∈ db.nodes.keys
  path : ∀ r ∈ db.nodes.rows, ∃ ids, Lineage db.nodes r.id ids ∧ r.path = pathOf ids
  acyclic : Acyclic (parentFrom db.nodes)

theorem planNodePath_pathOf (ids : List Uuid) (id : Uuid) :
    planNodePath (some (pathOf ids)) id = pathOf (ids ++ [id]) := by
  rw [pathOf, pathOf, List.foldl_append]
  rfl

theorem Lineage.unique {nodes : Table PlanNodeRow (·.id)} {id : Uuid} {ids ids' : List Uuid}
    (h : Lineage nodes id ids) (h' : Lineage nodes id ids') : ids = ids' := by
  induction h generalizing ids' with
  | root hr hp =>
    cases h' with
    | root => rfl
    | child hr' hp' _ =>
      rw [hr, Option.some.injEq] at hr'
      subst hr'
      rw [hp] at hp'
      cases hp'
  | child hr hp _ ih =>
    cases h' with
    | root hr' hp' =>
      rw [hr, Option.some.injEq] at hr'
      subst hr'
      rw [hp] at hp'
      cases hp'
    | child hr' hp' hl' =>
      rw [hr, Option.some.injEq] at hr'
      subst hr'
      rw [hp] at hp'
      cases hp'
      rw [ih hl']

theorem Lineage.exists_root {nodes : Table PlanNodeRow (·.id)} {id : Uuid} {ids : List Uuid}
    (h : Lineage nodes id ids) : ∃ r ∈ nodes.rows, r.parentId = none := by
  induction h with
  | root hr hp => exact ⟨_, Table.find?_mem hr, hp⟩
  | child _ _ _ ih => exact ih

namespace PlanDb

variable {db : PlanDb}

theorem spots_eq_some {a : Uuid} {s : Spot} :
    db.spots a = some s ↔ ∃ r, db.nodes.find? a = some r ∧ r.spot = s := Option.map_eq_some_iff

theorem spots_of_find? {a : Uuid} {r : PlanNodeRow} (h : db.nodes.find? a = some r) :
    db.spots a = some r.spot := by rw [spots, h]; rfl

theorem spots_of_mem {r : PlanNodeRow} (h : r ∈ db.nodes.rows) : db.spots r.id = some r.spot :=
  spots_of_find? (Table.mem_rows_iff.mp h)

theorem mem_keys_iff_spots {a : Uuid} : a ∈ db.nodes.keys ↔ ∃ s, db.spots a = some s := by
  rw [Table.mem_keys_iff_find?]
  constructor
  · rintro ⟨r, hr⟩
    exact ⟨_, spots_of_find? hr⟩
  · rintro ⟨s, hs⟩
    obtain ⟨r, hr, _⟩ := spots_eq_some.mp hs
    exact ⟨r, hr⟩

theorem parentFrom_eq_some {a p : Uuid} :
    parentFrom db.nodes a = some p ↔ ∃ s, db.spots a = some s ∧ s.parentId = some p := by
  constructor
  · intro h
    obtain ⟨r, hr, hp⟩ := Option.bind_eq_some_iff.mp h
    exact ⟨r.spot, spots_of_find? hr, hp⟩
  · rintro ⟨s, hs, hp⟩
    obtain ⟨r, hr, rfl⟩ := spots_eq_some.mp hs
    exact Option.bind_eq_some_iff.mpr ⟨r, hr, hp⟩

end PlanDb

namespace Settled

variable {db : PlanDb}

/-- Ancestors have shorter paths. -/
theorem path_lt (h : Settled db.spots) {a b : Uuid} (hab : Above (parentFrom db.nodes) a b) :
    ∃ s t, db.spots a = some s ∧ db.spots b = some t ∧ t.path.toList.length < s.path.toList.length := by
  have step : ∀ {a b}, parentFrom db.nodes a = some b → ∃ s t, db.spots a = some s ∧
      db.spots b = some t ∧ t.path.toList.length < s.path.toList.length := by
    intro a b hp
    obtain ⟨s, hs, hp⟩ := PlanDb.parentFrom_eq_some.mp hp
    obtain ⟨t, ht, hpath⟩ := h.child hs hp
    exact ⟨s, t, hs, ht, hpath ▸ length_planNodePath_lt t.path a⟩
  induction hab with
  | single hp => exact step hp
  | tail _ hp ih =>
    obtain ⟨s, t, hs, ht, hlt⟩ := ih
    obtain ⟨t', u, ht', hu, hlt'⟩ := step hp
    rw [ht, Option.some.injEq] at ht'
    subst ht'
    exact ⟨s, u, hs, hu, hlt'.trans hlt⟩

theorem lineage (h : Settled db.spots) {a : Uuid} {s : Spot} (ha : db.spots a = some s) :
    ∃ ids, Lineage db.nodes a ids ∧ s.path = pathOf ids := by
  induction hn : s.path.toList.length using Nat.strong_induction_on generalizing a s with
  | _ n ih =>
    obtain ⟨r, hr, rfl⟩ := PlanDb.spots_eq_some.mp ha
    cases hp : r.parentId with
    | none => exact ⟨[a], .root hr hp, h.root ha hp⟩
    | some p =>
      obtain ⟨t, ht, hpath⟩ := h.child ha hp
      have hlt : t.path.toList.length < n := by
        rw [← hn, hpath]
        exact length_planNodePath_lt t.path a
      obtain ⟨ids, hids, htp⟩ := ih _ hlt ht rfl
      exact ⟨ids ++ [a], .child hr hp hids, by rw [hpath, htp, planNodePath_pathOf]⟩

end Settled

theorem settled_iff_planTree {db : PlanDb} : Settled db.spots ↔ PlanTree db := by
  constructor
  · intro h
    refine ⟨?_, ?_, ?_, ?_⟩
    · intro r hr r' hr' hp hp'
      have hid := h.oneRoot (PlanDb.spots_of_mem hr) (PlanDb.spots_of_mem hr') hp hp'
      exact Table.key_injective hr hr' hid
    · intro r hr p hp
      obtain ⟨t, ht, _⟩ := h.child (PlanDb.spots_of_mem hr) hp
      exact PlanDb.mem_keys_iff_spots.mpr ⟨t, ht⟩
    · exact fun r hr => h.lineage (PlanDb.spots_of_mem hr)
    · intro a ha
      obtain ⟨s, t, hs, ht, hlt⟩ := h.path_lt ha
      rw [hs, Option.some.injEq] at ht
      subst ht
      exact absurd hlt (Nat.lt_irrefl _)
  · intro h
    have hpath : ∀ {a s}, db.spots a = some s → ∃ ids, Lineage db.nodes a ids ∧ s.path = pathOf ids := by
      intro a s ha
      obtain ⟨r, hr, rfl⟩ := PlanDb.spots_eq_some.mp ha
      have := h.path r (Table.find?_mem hr)
      rwa [(Table.find?_key hr :)] at this
    refine ⟨?_, ?_, ?_, fun ho => ho.elim⟩
    · intro a b s t ha hb hs ht
      obtain ⟨r, hr, rfl⟩ := PlanDb.spots_eq_some.mp ha
      obtain ⟨r', hr', rfl⟩ := PlanDb.spots_eq_some.mp hb
      have heq := h.oneRoot r (Table.find?_mem hr) r' (Table.find?_mem hr') hs ht
      rw [← (Table.find?_key hr : r.id = a), ← (Table.find?_key hr' : r'.id = b), heq]
    · intro a s ha hp
      obtain ⟨ids, hids, hs⟩ := hpath ha
      obtain ⟨r, hr, rfl⟩ := PlanDb.spots_eq_some.mp ha
      rw [hs, hids.unique (.root hr hp)]
      rfl
    · intro a s p ha hp
      obtain ⟨r, hr, rfl⟩ := PlanDb.spots_eq_some.mp ha
      obtain ⟨t, ht⟩ := PlanDb.mem_keys_iff_spots.mp (h.parentLive r (Table.find?_mem hr) p hp)
      obtain ⟨ids, hids, hs⟩ := hpath ha
      obtain ⟨ids', hids', ht'⟩ := hpath ht
      refine ⟨t, ht, .inl ?_⟩
      rw [hs, ht', planNodePath_pathOf, hids.unique (.child hr hp hids')]

end Haive

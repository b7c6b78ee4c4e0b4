import Haive.Mirror.Cycles

/-!
# What a kept node hangs under

`keepAncestors` clears the candidate mark of exactly the entries that `Stays`
describes: those without a mark and whatever is above one of them
(`keepAncestors_spec`). The loop's `walked` set is the usual marked set of a
reachability pass: everything in it stays, and it is closed under parents.
-/

namespace Haive

open Lib

def Entries.Stays (entries : Entries) (id : String) : Prop :=
  ∃ d e, entries.find? d = some e ∧ e.candidate = none ∧ (d = id ∨ Above entries.parentOf d id)

theorem Entries.Stays.parent {entries : Entries} {id p : String} (h : entries.Stays id)
    (hp : entries.parentOf id = some p) : entries.Stays p := by
  obtain ⟨d, e, hd, he, rfl | habove⟩ := h
  · exact ⟨d, e, hd, he, .inr (above_head hp)⟩
  · exact ⟨d, e, hd, he, .inr (habove.snoc hp)⟩

/-- The invariant of the loop over `start`, the entries before it, and the reports and
resurrections before it. -/
structure Keeping.Inv (start : Entries) (reported : List PlanMirrorReport)
    (resurrected : List String) (k : Keeping) : Prop where
  keys : k.entries.keys = start.keys
  entry : ∀ id e, start.find? id = some e →
    ∃ c, k.entries.find? id = some { e with candidate := c } ∧ (c = e.candidate ∨ c = none)
  stays : ∀ id e, k.entries.find? id = some e → e.candidate = none → start.Stays id
  walkedStays : ∀ id ∈ k.walked, start.Stays id
  walkedCleared : ∀ id ∈ k.walked, ∀ e, k.entries.find? id = some e → e.candidate = none
  reports : ∀ r ∈ k.reported, r ∈ reported ∨ ∃ id e deletedBy,
    r = .keptAncestor (.node id) deletedBy ∧ k.entries.find? id = some e ∧ e.candidate = none
  oldReports : ∀ r ∈ reported, r ∈ k.reported
  revived : ∀ id ∈ k.resurrected, id ∈ resurrected ∨
    (start.Stays id ∧ ∃ e, start.find? id = some e ∧ e.candidate = some .deletedByLocal)

/-- Every parent of a walked node is walked too, apart from the one the climb is at. -/
def Keeping.Closed (start : Entries) (k : Keeping) (cur : Option String) : Prop :=
  ∀ id ∈ k.walked, ∀ p, start.parentOf id = some p → p ∈ k.walked ∨ cur = some p

section
variable {start : Entries} {reported : List PlanMirrorReport} {resurrected : List String}
  {k : Keeping}

/-- The entry of an id, in the table the loop started from. -/
theorem Keeping.Inv.start_find (h : k.Inv start reported resurrected) {id : String} {e : Entry}
    (he : k.entries.find? id = some e) : ∃ e₀ c, start.find? id = some e₀ ∧
      e = { e₀ with candidate := c } ∧ (c = e₀.candidate ∨ c = none) := by
  have hk : id ∈ start.keys := h.keys ▸ Table.mem_keys_iff_find?.mpr ⟨e, he⟩
  obtain ⟨e₀, he₀⟩ := Table.mem_keys_iff_find?.mp hk
  obtain ⟨c, hc, hor⟩ := h.entry id e₀ he₀
  rw [he] at hc
  exact ⟨e₀, c, he₀, Option.some.inj hc, hor⟩

theorem Keeping.Inv.parentOf (h : k.Inv start reported resurrected) {id : String} {e : Entry}
    (he : k.entries.find? id = some e) : start.parentOf id = e.node.parentId := by
  obtain ⟨e₀, c, he₀, heq, _⟩ := h.start_find he
  rw [parentOf_find he₀, heq]

theorem Keeping.Inv.clear (h : k.Inv start reported resurrected) {a : Entry}
    (ha : k.entries.find? a.node.id = some a) (hstays : start.Stays a.node.id)
    (reports : List PlanMirrorReport) (revived : List String)
    (hreports : ∀ r ∈ reports, ∃ deletedBy, r = .keptAncestor (.node a.node.id) deletedBy)
    (hrevived : ∀ id ∈ revived, id = a.node.id ∧ a.candidate = some .deletedByLocal) :
    Keeping.Inv start reported resurrected
      { k with
        entries := k.entries.put { a with candidate := none }
        reported := k.reported ++ reports
        resurrected := k.resurrected ++ revived } := by
  have hself : (k.entries.put { a with candidate := none }).find? a.node.id =
      some { a with candidate := none } := Table.find?_put_self k.entries { a with candidate := none }
  have hmono : ∀ id e, k.entries.find? id = some e → e.candidate = none →
      ∃ e', (k.entries.put { a with candidate := none }).find? id = some e' ∧ e'.candidate = none := by
    intro id e he hc
    rw [Table.find?_put]
    split
    · exact ⟨_, rfl, rfl⟩
    · exact ⟨e, he, hc⟩
  refine ⟨?_, ?_, ?_, h.walkedStays, ?_, ?_, ?_, ?_⟩
  · rw [← h.keys]
    exact Table.keys_put_of_mem (Table.mem_keys_iff_find?.mpr ⟨a, ha⟩)
  · intro id e he
    by_cases hid : a.node.id = id
    · subst hid
      obtain ⟨e₀, c, he₀, heq, _⟩ := h.start_find ha
      rw [he] at he₀
      cases he₀
      refine ⟨none, ?_, .inr rfl⟩
      rw [hself, heq]
    · obtain ⟨c, hc, hor⟩ := h.entry id e he
      refine ⟨c, ?_, hor⟩
      rw [Table.find?_put, if_neg (by exact hid)]
      exact hc
  · intro id e he hc
    rw [Table.find?_put] at he
    split at he
    · next hid => exact hid ▸ hstays
    · exact h.stays id e he hc
  · intro id hid e he
    rw [Table.find?_put] at he
    split at he
    · cases he
      rfl
    · exact h.walkedCleared id hid e he
  · intro r hr
    rcases List.mem_append.mp hr with hr | hr
    · refine (h.reports r hr).imp id ?_
      rintro ⟨id, e, by', rfl, he, hc⟩
      obtain ⟨e', he', hc'⟩ := hmono id e he hc
      exact ⟨id, e', by', rfl, he', hc'⟩
    · obtain ⟨by', rfl⟩ := hreports r hr
      exact .inr ⟨a.node.id, _, by', rfl, hself, rfl⟩
  · exact fun r hr => List.mem_append_left _ (h.oldReports r hr)
  · intro id hid
    rcases List.mem_append.mp hid with hid | hid
    · exact h.revived id hid
    · obtain ⟨rfl, hc⟩ := hrevived id hid
      obtain ⟨e₀, c, he₀, heq, hor⟩ := h.start_find ha
      refine .inr ⟨hstays, e₀, he₀, ?_⟩
      rw [heq] at hc
      rcases hor with rfl | rfl
      · exact hc
      · simp at hc

/-- One step of the climb. -/
theorem Keeping.Inv.keep (h : k.Inv start reported resurrected) {a : Entry}
    (ha : k.entries.find? a.node.id = some a) (hstays : start.Stays a.node.id) :
    (k.keep a).Inv start reported resurrected ∧ (k.keep a).walked = k.walked ∧
      ∃ e, (k.keep a).entries.find? a.node.id = some e ∧ e.candidate = none := by
  have hself : (k.entries.put { a with candidate := none }).find? a.node.id =
      some { a with candidate := none } := Table.find?_put_self k.entries { a with candidate := none }
  unfold Keeping.keep
  cases hc : a.candidate with
  | none => exact ⟨h, rfl, a, ha, hc⟩
  | some c =>
    cases c with
    | deletedByLocal =>
      refine ⟨h.clear ha hstays _ _ ?_ ?_, rfl, _, hself, rfl⟩
      · simp
      · simp [hc]
    | deletedByIncoming =>
      refine ⟨?_, rfl, _, hself, rfl⟩
      have := h.clear ha hstays [.keptAncestor (.node a.node.id) .incomingSide] [] (by simp) (by simp)
      rwa [List.append_nil] at this

/-- A node that stays and has no mark may join the walked set. -/
theorem Keeping.Inv.walk (h : k.Inv start reported resurrected) {p : String}
    (hstays : start.Stays p) (hclear : ∀ e, k.entries.find? p = some e → e.candidate = none) :
    Keeping.Inv start reported resurrected { k with walked := p :: k.walked } := by
  refine ⟨h.keys, h.entry, h.stays, fun id hid => ?_, fun id hid e he => ?_, h.reports, h.oldReports,
    h.revived⟩
  · rcases List.mem_cons.mp hid with rfl | hid
    · exact hstays
    · exact h.walkedStays id hid
  · rcases List.mem_cons.mp hid with rfl | hid
    · exact hclear e he
    · exact h.walkedCleared id hid e he

theorem Keeping.keep_walk (k : Keeping) (a : Entry) (p : String) :
    ({ k with walked := p :: k.walked } : Keeping).keep a =
      { k.keep a with walked := p :: (k.keep a).walked } := by
  unfold Keeping.keep
  cases a.candidate with
  | none => rfl
  | some c => cases c <;> rfl

/-- The climb ends, keeps the invariant and walks every ancestor of where it started. The fuel
bounds the entries that are not walked yet. -/
theorem keepUp_spec {fuel : Nat} (cur : Option String) (h : k.Inv start reported resurrected)
    (hclosed : k.Closed start cur) (hcur : ∀ p, cur = some p → start.Stays p)
    (hfuel : start.keys.countP (· ∉ k.walked) < fuel) :
    ∃ k', keepUp fuel cur k = .ok k' ∧ k'.Inv start reported resurrected ∧ k'.Closed start none ∧
      (∀ id ∈ k.walked, id ∈ k'.walked) ∧ ∀ p, cur = some p → p ∈ k'.walked := by
  induction fuel generalizing cur k with
  | zero => omega
  | succ fuel ih =>
    cases cur with
    | none => exact ⟨k, by simp [keepUp], h, hclosed, fun _ hid => hid, by simp⟩
    | some p =>
      by_cases hw : p ∈ k.walked
      · refine ⟨k, by simp [keepUp, hw], h, ?_, fun _ hid => hid, ?_⟩
        · intro id hid q hq
          rcases hclosed id hid q hq with hq' | hq'
          · exact .inl hq'
          · cases hq'
            exact .inl hw
        · intro q hq
          cases hq
          exact hw
      · rw [keepUp, if_neg hw]
        have hstays := hcur p rfl
        have grown : Keeping.Closed start { k with walked := p :: k.walked } (start.parentOf p) := by
          intro id hid q hq
          rcases List.mem_cons.mp hid with rfl | hid
          · exact .inr hq
          · rcases hclosed id hid q hq with hq' | hq'
            · exact .inl (List.mem_cons_of_mem _ hq')
            · cases hq'
              exact .inl List.mem_cons_self
        cases hf : k.entries.find? p with
        | none =>
          have hp : p ∉ start.keys := h.keys ▸ Table.find?_eq_none.mp hf
          rw [parentOf_eq_none hp] at grown
          refine ⟨{ k with walked := p :: k.walked }, by simp only [hf], h.walk hstays (by simp [hf]),
            grown, fun _ hid => List.mem_cons_of_mem _ hid, fun q hq => ?_⟩
          cases hq
          exact List.mem_cons_self
        | some a =>
          have hid : a.node.id = p := (Table.find?_key hf :)
          subst hid
          simp only [hf]
          obtain ⟨hkept, hwalked, e, he, hc⟩ := h.keep hf hstays
          have hinv : Keeping.Inv start reported resurrected
              { k.keep a with walked := a.node.id :: (k.keep a).walked } := by
            refine hkept.walk hstays fun e' he' => ?_
            rw [he] at he'
            cases he'
            exact hc
          have hless : start.keys.countP (· ∉ a.node.id :: k.walked) < fuel := by
            have hmem : a.node.id ∈ start.keys :=
              h.keys ▸ Table.mem_keys_iff_find?.mpr ⟨a, hf⟩
            have := countP_not_mem_cons_lt hmem hw
            omega
          have hparent := h.parentOf hf
          rw [hparent] at grown
          rw [Keeping.keep_walk, hwalked]
          rw [hwalked] at hinv
          obtain ⟨k', hok, hinv', hclosed', hgrow, -⟩ := ih _ hinv grown
            (fun q hq => hstays.parent (hparent.trans hq)) hless
          refine ⟨k', hok, hinv', hclosed', fun id hid => hgrow id (List.mem_cons_of_mem _ hid), ?_⟩
          intro q hq
          cases hq
          exact hgrow _ List.mem_cons_self

/-- The loop over the kept entries. -/
theorem keepAncestors_inv (fuel : Nat) (ids : List String) (h : k.Inv start reported resurrected)
    (hclosed : k.Closed start none) (hfuel : start.keys.length < fuel) :
    ∃ k', keepAncestors fuel ids k = .ok k' ∧ k'.Inv start reported resurrected ∧
      k'.Closed start none ∧ (∀ id ∈ k.walked, id ∈ k'.walked) ∧
      ∀ id ∈ ids, ∀ e, start.find? id = some e → e.candidate = none →
        ∀ p, e.node.parentId = some p → p ∈ k'.walked := by
  induction ids generalizing k with
  | nil => exact ⟨k, rfl, h, hclosed, fun _ hid => hid, by simp⟩
  | cons id rest ih =>
    -- An entry that the loop passes over has a mark, so it had one before the loop.
    have skip : (∀ e, k.entries.find? id = some e → e.candidate.isSome) →
        ∀ e, start.find? id = some e → e.candidate = none → False := by
      intro hmark e he hc
      obtain ⟨c, hfind, hor⟩ := h.entry id e he
      have := hmark _ hfind
      rcases hor with rfl | rfl <;> simp_all
    rw [keepAncestors]
    cases hf : k.entries.find? id with
    | none =>
      obtain ⟨k', hok, hinv, hcl, hgrow, hall⟩ := ih h hclosed
      refine ⟨k', hok, hinv, hcl, hgrow, fun x hx e he hc => ?_⟩
      rcases List.mem_cons.mp hx with rfl | hx
      · exact (skip (by simp [hf]) e he hc).elim
      · exact hall x hx e he hc
    | some a =>
      by_cases hmark : a.candidate.isSome = true
      · simp only [hmark, if_true]
        obtain ⟨k', hok, hinv, hcl, hgrow, hall⟩ := ih h hclosed
        refine ⟨k', hok, hinv, hcl, hgrow, fun x hx e he hc => ?_⟩
        rcases List.mem_cons.mp hx with rfl | hx
        · exact (skip (by simp [hf, hmark]) e he hc).elim
        · exact hall x hx e he hc
      · have hnone : a.candidate = none := by simpa using hmark
        have hparent := h.parentOf hf
        obtain ⟨k₁, hok₁, hinv₁, hcl₁, hgrow₁, hcur₁⟩ := keepUp_spec a.node.parentId h
          (fun x hx q hq => .inl ((hclosed x hx q hq).resolve_right (by simp)))
          (fun p hp => (h.stays id a hf hnone).parent (hparent.trans hp))
          (Nat.lt_of_le_of_lt List.countP_le_length hfuel)
        obtain ⟨k', hok, hinv, hcl, hgrow, hall⟩ := ih hinv₁ hcl₁
        refine ⟨k', ?_, hinv, hcl, fun x hx => hgrow x (hgrow₁ x hx), fun x hx e he hc p hp => ?_⟩
        · simp only [hnone, Option.isSome_none, Bool.false_eq_true, if_false, hok₁]
          exact hok
        · rcases List.mem_cons.mp hx with rfl | hx
          · obtain ⟨e₀, c, he₀, heq, _⟩ := h.start_find hf
            rw [he] at he₀
            cases he₀
            exact hgrow p (hcur₁ p (by rw [heq]; exact hp))
          · exact hall x hx e he hc p hp

/-- A walked set closed under parents contains the ancestors of what it contains. -/
theorem Keeping.Closed.above (hclosed : k.Closed start none) {d id : String} (hd : d ∈ k.walked)
    (h : Above start.parentOf d id) : id ∈ k.walked := by
  induction h with
  | single hs => exact (hclosed d hd _ hs).resolve_right (by simp)
  | tail _ hs ih => exact (hclosed _ ih _ hs).resolve_right (by simp)

/-- The pass ends, and afterwards the entries without a mark are exactly those that stay. -/
theorem keepAncestors_spec (start : Entries) (reported : List PlanMirrorReport)
    (resurrected : List String) :
    ∃ k, keepAncestors (start.rows.length + 1) start.keys ⟨start, [], reported, resurrected⟩ = .ok k ∧
      k.Inv start reported resurrected ∧
      ∀ id e, k.entries.find? id = some e → (e.candidate = none ↔ start.Stays id) := by
  have hinit : Keeping.Inv start reported resurrected ⟨start, [], reported, resurrected⟩ := by
    refine ⟨rfl, fun id e he => ⟨e.candidate, he, .inl rfl⟩, fun id e he hc => ⟨id, e, he, hc, .inl rfl⟩,
      by simp, by simp, fun r hr => .inl hr, fun r hr => hr, fun id hid => .inl hid⟩
  obtain ⟨k, hok, hinv, hclosed, _, hall⟩ := keepAncestors_inv (start.rows.length + 1)
    start.keys hinit (by simp [Keeping.Closed]) (by simp [Table.keys])
  refine ⟨k, hok, hinv, fun id e he => ⟨hinv.stays id e he, ?_⟩⟩
  rintro ⟨d, e₀, hd, hc, rfl | habove⟩
  · obtain ⟨c, hfind, hor⟩ := hinv.entry d e₀ hd
    rw [he] at hfind
    cases hfind
    rcases hor with rfl | rfl
    · exact hc
    · rfl
  · obtain ⟨p, hp, hrest⟩ := above_iff.mp habove
    have hwalked : p ∈ k.walked := hall d (Table.mem_keys_iff_find?.mpr ⟨e₀, hd⟩) e₀ hd hc p
      ((parentOf_find hd).symm.trans hp)
    rcases hrest with rfl | hrest
    · exact hinv.walkedCleared p hwalked e he
    · exact hinv.walkedCleared id (hclosed.above hwalked hrest) e he

end

end Haive

import Haive.ProjectState.Merge

/-!
# Merging the units of a record

What a merge with a base does to one unit: a side that did not change it gives way, the sides may change places, and
a unit that both changed differently is a conflict in which the local value stands. A set has no conflicts.
-/

namespace Haive.ProjectState

open Lib.Units
open Lib (Json Table nodup_eraseDups)
open Lib.ThreeWay

/-! ## Sorted sets -/

theorem mem_sortedSet {values : List Text} {m : Text} : m ∈ sortedSet values ↔ m ∈ values := by
  rw [sortedSet, List.mem_insertionSort, List.mem_eraseDups]

theorem nodup_sortedSet (values : List Text) : (sortedSet values).Nodup :=
  (List.perm_insertionSort _ _).nodup_iff.mpr (nodup_eraseDups values)

theorem sorted_sortedSet (values : List Text) : (sortedSet values).Pairwise codeUnitsBefore :=
  List.pairwise_insertionSort codeUnitsBefore _

/-- In order and without repetition there is one list of some texts. -/
theorem eq_of_sorted {a b : List Text} (ha : a.Pairwise codeUnitsBefore) (hb : b.Pairwise codeUnitsBefore)
    (hanodup : a.Nodup) (hbnodup : b.Nodup) (h : ∀ m, m ∈ a ↔ m ∈ b) : a = b :=
  ((List.perm_ext_iff_of_nodup hanodup hbnodup).mpr h).eq_of_pairwise
    (fun _ _ _ _ hxy hyx => List.le_antisymm hxy hyx) ha hb

theorem sortedSet_congr {a b : List Text} (h : ∀ m, m ∈ a ↔ m ∈ b) : sortedSet a = sortedSet b :=
  eq_of_sorted (sorted_sortedSet a) (sorted_sortedSet b) (nodup_sortedSet a) (nodup_sortedSet b) fun m =>
    mem_sortedSet.trans ((h m).trans mem_sortedSet.symm)

/-! ## What counts as the same -/

variable {numberText : Float → Text} {T : Type} {json : T → Json}

theorem sameJson_eq : sameJson numberText json =
    fun a b => decide (a.map (canonicalJson numberText ∘ json) = b.map (canonicalJson numberText ∘ json)) := by
  funext a b
  cases a <;> cases b <;> simp [sameJson, sameValue]

theorem lawful_sameJson : Lawful (sameJson numberText json) := @sameJson_eq numberText _ json ▸ lawful_of_eq _

def ProjectStateConflict.swap (c : ProjectStateConflict) : ProjectStateConflict :=
  { c with localSide := c.incoming, incoming := c.localSide }

/-- A question about a mark. -/
def IsWatermarkConflict (c : ProjectStateConflict) : Prop := ∃ key ∈ REVIEW_WATERMARK_KEYS, c.unit = watermarkUnit key

section Laws

variable {α : Type} (rel : α → α → Prop)

/-- The outcome is what the side holds, and nothing but marks is a question. -/
structure Gives (o : Outcome α) (side : α) : Prop where
  value : rel o.value side
  conflicts : ∀ c ∈ o.conflicts, IsWatermarkConflict c

def OneChanged (b s l i : α) : Prop := l = s ∧ i = b ∨ l = b ∧ i = s

/-- A side that did not change a value since the base gives way. -/
structure Keeps (merge : α → α → α → Outcome α) : Prop where
  gives : ∀ {b s l i}, OneChanged b s l i → Gives rel (merge b l i) s

/-- The sides may change places. -/
structure Swaps (merge : α → α → α → Outcome α) : Prop where
  conflicts : ∀ b l i, (merge b i l).conflicts = (merge b l i).conflicts.map ProjectStateConflict.swap
  value : ∀ b l i, (merge b l i).conflicts = [] → rel (merge b i l).value (merge b l i).value

variable {rel}

theorem gives_of_nil {o : Outcome α} {side : α} (hvalue : rel o.value side) (hconflicts : o.conflicts = []) :
    Gives rel o side := ⟨hvalue, by rw [hconflicts]; exact fun _ hc => absurd hc List.not_mem_nil⟩

theorem OneChanged.map {β : Type} {b s l i : α} (h : OneChanged b s l i) (f : α → β) :
    OneChanged (f b) (f s) (f l) (f i) := by
  rcases h with ⟨rfl, rfl⟩ | ⟨rfl, rfl⟩
  · exact .inl ⟨rfl, rfl⟩
  · exact .inr ⟨rfl, rfl⟩

theorem Keeps.mono {rel' : α → α → Prop} {merge : α → α → α → Outcome α} (h : Keeps rel merge)
    (hrel : ∀ {a b}, rel a b → rel' a b) : Keeps rel' merge :=
  ⟨fun hone => ⟨hrel (h.gives hone).value, (h.gives hone).conflicts⟩⟩

theorem Gives.mono {rel' : α → α → Prop} {o : Outcome α} {side : α} (h : Gives rel o side)
    (hrel : ∀ {a b}, rel a b → rel' a b) : Gives rel' o side := ⟨hrel h.value, h.conflicts⟩

end Laws

theorem mergeUnit_of_base (unit : Text) (b l i : Option T) :
    mergeUnit numberText true json unit b l i =
      { value := settled (sameJson numberText json) b l i
        conflicts :=
          if clashes (sameJson numberText json) b l i then [⟨unit, b.map json, l.map json, i.map json⟩] else [] } := rfl

theorem mergeUnit_keeps (unit : Text) :
    Keeps (fun a b => sameJson numberText json a b = true) (mergeUnit numberText true json unit) := by
  refine ⟨fun {b s l i} hone => ?_⟩
  rw [mergeUnit_of_base]
  rcases hone with ⟨rfl, rfl⟩ | ⟨rfl, rfl⟩
  · rw [lawful_sameJson.clashes_base_incoming]
    exact gives_of_nil lawful_sameJson.settled_base_incoming rfl
  · rw [lawful_sameJson.clashes_base_local]
    exact gives_of_nil lawful_sameJson.settled_base_local rfl

theorem mergeUnit_swaps (unit : Text) :
    Swaps (fun a b => sameJson numberText json a b = true) (mergeUnit numberText true json unit) where
  conflicts b l i := by
    rw [mergeUnit_of_base, mergeUnit_of_base, lawful_sameJson.clashes_comm]
    dsimp only
    split <;> rfl
  value b l i hnone := by
    refine lawful_sameJson.settled_comm ?_
    rw [mergeUnit_of_base] at hnone
    by_contra hclash
    rw [if_pos (Bool.eq_true_of_not_eq_false hclash)] at hnone
    exact List.cons_ne_nil _ _ hnone

/-! ## Sets -/

theorem mergeMembers_of_base (b l i : List Text) : mergeMembers true b l i =
    (sortedSet (b ++ l ++ i)).filter fun m => settled (· == ·) (b.contains m) (l.contains m) (i.contains m) := rfl

theorem mem_mergeMembers {b l i : List Text} {m : Text} :
    m ∈ mergeMembers true b l i ↔ settled (· == ·) (b.contains m) (l.contains m) (i.contains m) = true := by
  rw [mergeMembers_of_base, List.mem_filter, mem_sortedSet, and_iff_right_iff_imp, List.mem_append, List.mem_append]
  intro hkept
  rcases @settled_cases _ (· == ·) (b.contains m) (l.contains m) (i.contains m) with heq | heq
  · exact .inl (.inr (List.contains_iff_mem.mp (heq.symm.trans hkept)))
  · exact .inr (List.contains_iff_mem.mp (heq.symm.trans hkept))

theorem mergeMembers_sorted (b l i : List Text) : (mergeMembers true b l i).Pairwise codeUnitsBefore :=
  (sorted_sortedSet _).filter _

theorem mergeMembers_nodup (b l i : List Text) : (mergeMembers true b l i).Nodup := (nodup_sortedSet _).filter _

theorem mergeMembers_keeps {b s l i : List Text} (h : OneChanged b s l i) : mergeMembers true b l i = sortedSet s := by
  refine eq_of_sorted (mergeMembers_sorted b l i) (sorted_sortedSet s) (mergeMembers_nodup b l i) (nodup_sortedSet s)
    fun m => ?_
  rw [mem_mergeMembers, mem_sortedSet, ← List.contains_iff_mem]
  rcases h with ⟨rfl, rfl⟩ | ⟨rfl, rfl⟩
  · rw [eq_of_beq lawful_bool.settled_base_incoming]
  · rw [eq_of_beq lawful_bool.settled_base_local]

theorem mergeMembers_comm (b l i : List Text) : mergeMembers true b i l = mergeMembers true b l i := by
  refine eq_of_sorted (mergeMembers_sorted b i l) (mergeMembers_sorted b l i) (mergeMembers_nodup b i l)
    (mergeMembers_nodup b l i) fun m => ?_
  rw [mem_mergeMembers, mem_mergeMembers, eq_of_beq (lawful_bool.settled_comm (clashes_bool ..))]

theorem sortedSet_sortedSet (values : List Text) : sortedSet (sortedSet values) = sortedSet values :=
  sortedSet_congr fun _ => mem_sortedSet

/-- The same value, or sets with the same members, one that is absent being empty. -/
def SameSet (numberText : Float → Text) (a b : Option Json) : Prop :=
  sameJson numberText id a b = true ∨
    ∃ m n, members? a = some m ∧ members? b = some n ∧ sortedSet m = sortedSet n

def setValue (absent : Bool) (merged : List Text) : Option Json :=
  if absent && merged = [] then none else some (texts merged)

theorem members?_setValue (absent : Bool) (merged : List Text) : members? (setValue absent merged) = some merged := by
  rw [setValue]
  split
  · next h => rw [of_decide_eq_true (Bool.and_eq_true_iff.mp h).2, members?]
  · exact stringList?_texts merged

/-- All three sides are sets, and one of the two that are merged is there. -/
def MergesSets (b l i : Option Json) : Prop :=
  (members? b).isSome ∧ (members? l).isSome ∧ (members? i).isSome ∧ (l.isNone && i.isNone) = false

theorem MergesSets.symm {b l i : Option Json} (h : MergesSets b l i) : MergesSets b i l :=
  ⟨h.1, h.2.2.1, h.2.1, (Bool.and_comm ..).trans h.2.2.2⟩

theorem mergeSetValue_of_sets (unit : Text) {b l i : Option Json} (h : MergesSets b l i) :
    ∃ mb ml mi, members? b = some mb ∧ members? l = some ml ∧ members? i = some mi ∧
      mergeSetValue numberText true unit b l i =
        { value := setValue (l.isNone || i.isNone) (mergeMembers true mb ml mi) } := by
  obtain ⟨hb, hl, hi, hsome⟩ := h
  obtain ⟨mb, hb⟩ := Option.isSome_iff_exists.mp hb
  obtain ⟨ml, hl⟩ := Option.isSome_iff_exists.mp hl
  obtain ⟨mi, hi⟩ := Option.isSome_iff_exists.mp hi
  refine ⟨mb, ml, mi, hb, hl, hi, ?_⟩
  rw [mergeSetValue, hb, hl, hi]
  dsimp only
  rw [hsome, if_neg Bool.false_ne_true]
  rfl

theorem mergeSetValue_of_not_sets (unit : Text) {b l i : Option Json} (h : ¬ MergesSets b l i) :
    mergeSetValue numberText true unit b l i = mergeUnit numberText true id unit b l i := by
  rw [mergeSetValue]
  split
  · next mb ml mi hb hl hi =>
    refine if_pos (Bool.eq_true_of_not_eq_false fun hsome => h ⟨?_, ?_, ?_, hsome⟩)
    · rw [hb, Option.isSome_some]
    · rw [hl, Option.isSome_some]
    · rw [hi, Option.isSome_some]
  · rfl

theorem mergeSetValue_keeps (unit : Text) : Keeps (SameSet numberText) (mergeSetValue numberText true unit) := by
  refine ⟨fun {b s l i} hone => ?_⟩
  by_cases h : MergesSets b l i
  · obtain ⟨mb, ml, mi, hb, hl, hi, heq⟩ := @mergeSetValue_of_sets numberText unit _ _ _ h
    have hsets : ∃ ms, members? s = some ms ∧ OneChanged mb ms ml mi := by
      rcases hone with ⟨rfl, rfl⟩ | ⟨rfl, rfl⟩
      · exact ⟨ml, hl, .inl ⟨rfl, Option.some.inj (hi.symm.trans hb)⟩⟩
      · exact ⟨mi, hi, .inr ⟨Option.some.inj (hl.symm.trans hb), rfl⟩⟩
    obtain ⟨ms, hs, hmembers⟩ := hsets
    rw [heq, mergeMembers_keeps hmembers]
    exact gives_of_nil (.inr ⟨_, ms, members?_setValue _ _, hs, sortedSet_sortedSet ms⟩) rfl
  · rw [mergeSetValue_of_not_sets unit h]
    exact ((mergeUnit_keeps unit).gives hone).mono .inl

theorem mergeSetValue_swaps (unit : Text) : Swaps (SameSet numberText) (mergeSetValue numberText true unit) where
  conflicts b l i := by
    by_cases h : MergesSets b l i
    · obtain ⟨_, _, _, -, -, -, heq⟩ := @mergeSetValue_of_sets numberText unit _ _ _ h
      obtain ⟨_, _, _, -, -, -, heq'⟩ := @mergeSetValue_of_sets numberText unit _ _ _ h.symm
      rw [heq, heq']
      rfl
    · rw [mergeSetValue_of_not_sets unit h, mergeSetValue_of_not_sets unit fun h' => h h'.symm]
      exact (mergeUnit_swaps unit).conflicts b l i
  value b l i hnone := by
    by_cases h : MergesSets b l i
    · obtain ⟨mb, ml, mi, hb, hl, hi, heq⟩ := @mergeSetValue_of_sets numberText unit _ _ _ h
      obtain ⟨mb', mi', ml', hb', hi', hl', heq'⟩ := @mergeSetValue_of_sets numberText unit _ _ _ h.symm
      obtain rfl := Option.some.inj (hb.symm.trans hb')
      obtain rfl := Option.some.inj (hl.symm.trans hl')
      obtain rfl := Option.some.inj (hi.symm.trans hi')
      rw [heq, heq', mergeMembers_comm, Bool.or_comm]
      exact .inl (lawful_sameJson.refl _)
    · rw [mergeSetValue_of_not_sets unit h] at hnone ⊢
      rw [mergeSetValue_of_not_sets unit fun h' => h h'.symm]
      exact .inl ((mergeUnit_swaps unit).value b l i hnone)

def SameUnit (numberText : Float → Text) (isSet : Prop) (a b : Option Json) : Prop :=
  sameJson numberText id a b = true ∨ isSet ∧ SameSet numberText a b

theorem SameUnit.refl (isSet : Prop) (a : Option Json) : SameUnit numberText isSet a a :=
  .inl (lawful_sameJson.refl a)

theorem SameUnit.symm {isSet : Prop} {a b : Option Json} (h : SameUnit numberText isSet a b) :
    SameUnit numberText isSet b a := by
  rcases h with hsame | ⟨hset, hsame | ⟨m, n, hm, hn, heq⟩⟩
  · exact .inl (lawful_sameJson.symm hsame)
  · exact .inl (lawful_sameJson.symm hsame)
  · exact .inr ⟨hset, .inr ⟨n, m, hn, hm, heq.symm⟩⟩

section Value

variable (isSet : Prop) [Decidable isSet] (unit : Text)

def mergeValue (numberText : Float → Text) (b l i : Option Json) : Outcome (Option Json) :=
  if isSet then mergeSetValue numberText true unit b l i else mergeUnit numberText true id unit b l i

theorem mergeValue_cases : isSet ∧ mergeValue isSet unit numberText = mergeSetValue numberText true unit ∨
    mergeValue isSet unit numberText = mergeUnit numberText true id unit := by
  by_cases h : isSet
  · exact .inl ⟨h, funext fun _ => funext fun _ => funext fun _ => if_pos h⟩
  · exact .inr (funext fun _ => funext fun _ => funext fun _ => if_neg h)

theorem mergeValue_keeps : Keeps (SameUnit numberText isSet) (mergeValue isSet unit numberText) := by
  rcases @mergeValue_cases numberText isSet _ unit with ⟨hset, heq⟩ | heq
  · rw [heq]
    exact (mergeSetValue_keeps unit).mono fun hsame => .inr ⟨hset, hsame⟩
  · rw [heq]
    exact (mergeUnit_keeps unit).mono .inl

theorem mergeValue_swaps : Swaps (SameUnit numberText isSet) (mergeValue isSet unit numberText) := by
  rcases @mergeValue_cases numberText isSet _ unit with ⟨hset, heq⟩ | heq
  · have h := @mergeSetValue_swaps numberText unit
    rw [heq]
    exact ⟨h.conflicts, fun b l i hnone => .inr ⟨hset, h.value b l i hnone⟩⟩
  · have h := @mergeUnit_swaps numberText _ id unit
    rw [heq]
    exact ⟨h.conflicts, fun b l i hnone => .inl (h.value b l i hnone)⟩

theorem mergeValue_none : mergeValue isSet unit numberText none none none = { value := none } := by
  rw [mergeValue]
  split <;> rfl

end Value

/-! ## Merges key by key -/

section Keywise

variable {C V : Type} {look : C → Text → V} {m : Text → V → V → V → Outcome V} {merge : C → C → C → Outcome C}
  {rel : Text → V → V → Prop}

/-- What becomes of a key. -/
def atKey (look : C → Text → V) (m : Text → V → V → V → Outcome V) (b l i : C) (key : Text) : Outcome V :=
  m key (look b key) (look l key) (look i key)

/-- A merge that merges the value of each key; `keys` are those that some side has. -/
structure Keywise (look : C → Text → V) (m : Text → V → V → V → Outcome V) (merge : C → C → C → Outcome C)
    (keys : C → C → C → List Text) : Prop where
  value : ∀ b l i key, look (merge b l i).value key = (atKey look m b l i key).value
  conflicts : ∀ b l i, (merge b l i).conflicts = (keys b l i).flatMap fun key => (atKey look m b l i key).conflicts
  keys_swap : ∀ b l i, keys b i l = keys b l i
  other : ∀ b l i, ∀ key ∉ keys b l i, (atKey look m b l i key).conflicts = []

variable {keys : C → C → C → List Text} (h : Keywise look m merge keys)
include h

theorem Keywise.keeps (hm : ∀ key, Keeps (rel key) (m key)) :
    Keeps (fun a b => ∀ key, rel key (look a key) (look b key)) merge := by
  refine ⟨fun hone => ⟨fun key => ?_, fun c hc => ?_⟩⟩
  · rw [h.value]
    exact ((hm key).gives (hone.map fun c => look c key)).value
  · rw [h.conflicts] at hc
    obtain ⟨key, -, hc⟩ := List.mem_flatMap.mp hc
    exact ((hm key).gives (hone.map fun c => look c key)).conflicts c hc

theorem Keywise.swaps (hm : ∀ key, Swaps (rel key) (m key)) :
    Swaps (fun a b => ∀ key, rel key (look a key) (look b key)) merge := by
  refine ⟨fun b l i => ?_, fun b l i hnone key => ?_⟩
  · rw [h.conflicts, h.conflicts, h.keys_swap, List.map_flatMap]
    exact List.flatMap_congr fun key _ => (hm key).conflicts _ _ _
  · rw [h.value, h.value]
    refine (hm key).value _ _ _ ?_
    by_cases hkey : key ∈ keys b l i
    · exact List.flatMap_eq_nil_iff.mp ((h.conflicts b l i).symm.trans hnone) key hkey
    · exact h.other b l i key hkey

end Keywise

/-! ## Lists of units -/

theorem lookup_filterMap {g : Text → Option Json} {names : List Text} {name : Text} (h : name ∉ names → g name = none) :
    (names.filterMap fun name => (g name).map (name, ·)).lookup name = g name := by
  induction names with
  | nil => exact (h List.not_mem_nil).symm
  | cons first names ih =>
    rw [List.filterMap_cons]
    by_cases hfirst : name = first
    · subst hfirst
      cases hvalue : g name with
      | none => exact (ih fun _ => hvalue).trans hvalue
      | some value => exact List.lookup_cons_self
    · have hrest := ih fun hmem => h (List.not_mem_cons_of_ne_of_not_mem hfirst hmem)
      cases hvalue : g first with
      | none => exact hrest
      | some value =>
        dsimp only [Option.map_some]
        rw [List.lookup_cons, beq_eq_false_iff_ne.mpr hfirst]
        exact hrest

theorem lookup_gather {f : Text → Outcome (Option Json)} {names : List Text} {name : Text}
    (h : name ∉ names → (f name).value = none) :
    (gather (fun name => (f name).named name) names).value.lookup name = (f name).value :=
  lookup_filterMap (g := fun name => (f name).value) h

end Haive.ProjectState

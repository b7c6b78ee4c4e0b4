import Haive.ProjectState.MergeUnits

/-!
# The laws of a merge of records

With a base, a record that one side did not change merges to the other side's (`merge_keeps_local`,
`merge_keeps_incoming`), and the sides may change places (`merge_swap`).
-/

namespace Haive.ProjectState

open Lib.Units
open Lib (Json Table)
open Lib.ThreeWay

variable {numberText : Float → Text}

/-! ## Objects -/

theorem lookup_eq_none_of_notMem {fields : JsonFields} {key : Text} (h : key ∉ fields.map Prod.fst) :
    fields.lookup key = none := by
  refine List.lookup_eq_none_iff.mpr fun field hfield => bne_iff_ne.mpr ?_
  rintro rfl
  exact h (List.mem_map_of_mem hfield)

theorem nodup_filterMap_keys {α : Type} {keyOf : α → Text} {g : Text → Option α}
    (hg : ∀ key item, g key = some item → keyOf item = key) {keys : List Text} (hkeys : keys.Nodup) :
    ((keys.filterMap g).map keyOf).Nodup := by
  rw [List.map_filterMap]
  refine hkeys.filterMap fun a b k ha hb => ?_
  obtain ⟨item, hitem, rfl⟩ := Option.map_eq_some_iff.mp ha
  obtain ⟨item', hitem', hsame⟩ := Option.map_eq_some_iff.mp hb
  exact (hg a item hitem).symm.trans (hsame.symm.trans (hg b item' hitem'))

section Fields

variable {m : Text → Option Json → Option Json → Option Json → Outcome (Option Json)}

def field (fields : JsonFields) (key : Text) : Option Json := fields.lookup key

def fieldKeys (b l i : JsonFields) : List Text := sortedSet (l.map Prod.fst ++ i.map Prod.fst ++ b.map Prod.fst)

def mergeFields (m : Text → Option Json → Option Json → Option Json → Outcome (Option Json)) (b l i : JsonFields) :
    Outcome JsonFields := gather (fun key => (atKey field m b l i key).named key) (fieldKeys b l i)

theorem atKey_of_notMem (hm : ∀ key, m key none none none = { value := none }) {b l i : JsonFields} {key : Text}
    (h : key ∉ fieldKeys b l i) : atKey field m b l i key = { value := none } := by
  rw [fieldKeys, mem_sortedSet, List.mem_append, List.mem_append, not_or, not_or] at h
  rw [atKey, field, field, field, lookup_eq_none_of_notMem h.1.1, lookup_eq_none_of_notMem h.1.2,
    lookup_eq_none_of_notMem h.2, hm]

theorem keywise_fields (hm : ∀ key, m key none none none = { value := none }) :
    Keywise field m (mergeFields m) fieldKeys where
  value b l i key := lookup_gather fun hkey => by rw [atKey_of_notMem hm hkey]
  conflicts _ _ _ := rfl
  keys_swap b l i := sortedSet_congr fun key => by
    rw [List.mem_append, List.mem_append, List.mem_append, List.mem_append, or_comm (a := key ∈ i.map Prod.fst)]
  other b l i key hkey := by rw [atKey_of_notMem hm hkey]

theorem nodup_mergeFields (b l i : JsonFields) : ((mergeFields m b l i).value.map Prod.fst).Nodup := by
  refine nodup_filterMap_keys (fun key field hfield => ?_) (nodup_sortedSet _)
  obtain ⟨_, -, rfl⟩ := Option.map_eq_some_iff.mp hfield
  rfl

end Fields

/-! ## Project files -/

/-- Objects with the same values. -/
def SameFields (numberText : Float → Text) (setKeys : List Text) (a b : JsonFields) : Prop :=
  ∀ key, SameUnit numberText (key ∈ setKeys) (field a key) (field b key)

/-- Files that are both absent, or hold the same. -/
def SameFile (numberText : Float → Text) (setKeys : List Text) (a b : Option JsonFields) : Prop :=
  a = none ∧ b = none ∨ ∃ f g, a = some f ∧ b = some g ∧ SameFields numberText setKeys f g

theorem SameFile.symm {setKeys : List Text} {a b : Option JsonFields} (h : SameFile numberText setKeys a b) :
    SameFile numberText setKeys b a := by
  rcases h with ⟨ha, hb⟩ | ⟨f, g, ha, hb, hsame⟩
  · exact .inl ⟨hb, ha⟩
  · exact .inr ⟨g, f, hb, ha, fun key => (hsame key).symm⟩

theorem SameFile.refl (setKeys : List Text) (a : Option JsonFields) : SameFile numberText setKeys a a := by
  cases a with
  | none => exact .inl ⟨rfl, rfl⟩
  | some f => exact .inr ⟨f, f, rfl, rfl, fun key => SameUnit.refl _ _⟩

section File

variable {file : Text} {setKeys : List Text}

attribute [local instance] lawfulBEq_units in
/-- The merge of a file that both sides have. -/
def mergeKeys (numberText : Float → Text) (file : Text) (setKeys : List Text) : JsonFields → JsonFields → JsonFields →
    Outcome JsonFields := mergeFields fun key => mergeValue (key ∈ setKeys) (keyUnit file key) numberText

theorem keywise_mergeKeys : Keywise field (fun key => mergeValue (key ∈ setKeys) (keyUnit file key) numberText)
    (mergeKeys numberText file setKeys) fieldKeys := keywise_fields fun _ => mergeValue_none _ _

theorem mergeKeys_keeps : Keeps (SameFields numberText setKeys) (mergeKeys numberText file setKeys) :=
  keywise_mergeKeys.keeps fun _ => mergeValue_keeps _ _

theorem mergeKeys_swaps : Swaps (SameFields numberText setKeys) (mergeKeys numberText file setKeys) :=
  keywise_mergeKeys.swaps fun _ => mergeValue_swaps _ _

theorem mergeObjectFile_some (b : Option JsonFields) (l i : JsonFields) :
    mergeObjectFile numberText true file b (some l) (some i) setKeys =
      { value := some (mergeKeys numberText file setKeys (b.getD []) l i).value
        conflicts := (mergeKeys numberText file setKeys (b.getD []) l i).conflicts
        overwritten := (mergeKeys numberText file setKeys (b.getD []) l i).overwritten } := by
  cases b <;> rfl

/-- A file that a side does not have is one unit. -/
theorem mergeObjectFile_none (base l i : Option JsonFields) (h : l = none ∨ i = none) :
    mergeObjectFile numberText true file base l i setKeys = mergeUnit numberText true .obj file base l i := by
  rcases h with rfl | rfl
  · cases i <;> rfl
  · cases l <;> rfl

theorem eq_none_of_sameJson {T : Type} {json : T → Json} {a : Option T} (h : sameJson numberText json a none = true) :
    a = none := by
  cases a with
  | none => rfl
  | some a => exact absurd h Bool.false_ne_true

theorem mergeUnit_value_cases {T : Type} {json : T → Json} (unit : Text) (b l i : Option T) :
    (mergeUnit numberText true json unit b l i).value = l ∨ (mergeUnit numberText true json unit b l i).value = i :=
  settled_cases

/-- Of two values of which one is absent, the same one stands on both sides. -/
theorem mergeUnit_swap_none {T : Type} {json : T → Json} (unit : Text) {b l i : Option T} (h : l = none ∨ i = none)
    (hnone : (mergeUnit numberText true json unit b l i).conflicts = []) :
    (mergeUnit numberText true json unit b i l).value = (mergeUnit numberText true json unit b l i).value := by
  have hsame := (mergeUnit_swaps unit).value b l i hnone
  rcases @mergeUnit_value_cases numberText _ json unit b l i with hvalue | hvalue <;>
    rcases @mergeUnit_value_cases numberText _ json unit b i l with hvalue' | hvalue' <;>
    rw [hvalue, hvalue'] at hsame ⊢ <;>
    rcases h with rfl | rfl
  · exact eq_none_of_sameJson hsame
  · exact (eq_none_of_sameJson (lawful_sameJson.symm hsame)).symm
  · exact (eq_none_of_sameJson (lawful_sameJson.symm hsame)).symm
  · exact eq_none_of_sameJson hsame

theorem gives_of_unit {o : Outcome (Option JsonFields)} {side : Option JsonFields}
    (h : Gives (fun a b => sameJson numberText Json.obj a b = true) o side) (hside : side = none ∨ o.value = side) :
    Gives (SameFile numberText setKeys) o side := by
  refine ⟨?_, h.conflicts⟩
  rcases hside with rfl | heq
  · rw [eq_none_of_sameJson h.value]
    exact SameFile.refl _ _
  · rw [heq]
    exact SameFile.refl _ _

theorem mergeObjectFile_keeps :
    Keeps (SameFile numberText setKeys) fun b l i => mergeObjectFile numberText true file b l i setKeys := by
  refine ⟨fun {b s l i} hone => ?_⟩
  by_cases hnone : l = none ∨ i = none
  · have hunit := (@mergeUnit_keeps numberText _ Json.obj file).gives hone
    rw [mergeObjectFile_none b l i hnone]
    refine gives_of_unit hunit ?_
    rcases hone with ⟨rfl, rfl⟩ | ⟨rfl, rfl⟩
    · exact hnone.imp_right fun hb => by subst hb; cases l <;> rfl
    · exact hnone.symm.imp_right fun hb => by subst hb; cases i <;> rfl
  · rw [not_or] at hnone
    obtain ⟨l, rfl⟩ := Option.ne_none_iff_exists'.mp hnone.1
    obtain ⟨i, rfl⟩ := Option.ne_none_iff_exists'.mp hnone.2
    have hkeys : ∃ f, s = some f ∧ OneChanged (b.getD []) f l i := by
      rcases hone with ⟨rfl, rfl⟩ | ⟨rfl, rfl⟩
      · exact ⟨l, rfl, .inl ⟨rfl, rfl⟩⟩
      · exact ⟨i, rfl, .inr ⟨rfl, rfl⟩⟩
    obtain ⟨f, rfl, hfields⟩ := hkeys
    have hgives := (@mergeKeys_keeps numberText file setKeys).gives hfields
    rw [mergeObjectFile_some]
    exact ⟨.inr ⟨_, f, rfl, rfl, hgives.value⟩, hgives.conflicts⟩

theorem mergeObjectFile_swaps :
    Swaps (SameFile numberText setKeys) fun b l i => mergeObjectFile numberText true file b l i setKeys where
  conflicts b l i := by
    by_cases h : l = none ∨ i = none
    · rw [mergeObjectFile_none b l i h, mergeObjectFile_none b i l h.symm]
      exact (mergeUnit_swaps file).conflicts b l i
    · rw [not_or] at h
      obtain ⟨l, rfl⟩ := Option.ne_none_iff_exists'.mp h.1
      obtain ⟨i, rfl⟩ := Option.ne_none_iff_exists'.mp h.2
      rw [mergeObjectFile_some, mergeObjectFile_some]
      exact mergeKeys_swaps.conflicts _ l i
  value b l i hnone := by
    by_cases h : l = none ∨ i = none
    · rw [mergeObjectFile_none b l i h] at hnone ⊢
      rw [mergeObjectFile_none b i l h.symm, mergeUnit_swap_none file h hnone]
      exact SameFile.refl _ _
    · rw [not_or] at h
      obtain ⟨l, rfl⟩ := Option.ne_none_iff_exists'.mp h.1
      obtain ⟨i, rfl⟩ := Option.ne_none_iff_exists'.mp h.2
      rw [mergeObjectFile_some] at hnone ⊢
      rw [mergeObjectFile_some]
      exact .inr ⟨_, _, rfl, rfl, mergeKeys_swaps.value _ l i hnone⟩

end File

/-! ## Keyed lists -/

section Keyed

variable {T : Type} {json : T → Json} {keyOf : T → Text} {unitOf : Text → Text}

def itemAt (keyOf : T → Text) (items : List T) (key : Text) : Option T := (Table.ofList items : Table T keyOf).find? key

theorem keyOf_itemAt {items : List T} {key : Text} {item : T} (h : itemAt keyOf items key = some item) :
    keyOf item = key := Table.find?_key h

theorem itemAt_filterMap {g : Text → Option T} (hg : ∀ key item, g key = some item → keyOf item = key) {keys : List Text}
    (hkeys : keys.Nodup) {key : Text} (h : key ∉ keys → g key = none) : itemAt keyOf (keys.filterMap g) key = g key := by
  refine Option.ext fun item => ?_
  rw [itemAt, Table.find?_ofList (nodup_filterMap_keys hg hkeys), List.mem_filterMap]
  constructor
  · rintro ⟨⟨key', -, hitem⟩, rfl⟩
    rw [hg key' item hitem]
    exact hitem
  · intro hitem
    refine ⟨⟨key, ?_, hitem⟩, hg key item hitem⟩
    by_contra hkey
    rw [h hkey] at hitem
    cases hitem

def SameItems (numberText : Float → Text) (json : T → Json) (keyOf : T → Text) (a b : List T) : Prop :=
  ∀ key, sameJson numberText json (itemAt keyOf a key) (itemAt keyOf b key) = true

def itemKeys (keyOf : T → Text) (b l i : List T) : List Text :=
  sortedSet ((Table.ofList b : Table T keyOf).keys ++ (Table.ofList l : Table T keyOf).keys ++
    (Table.ofList i : Table T keyOf).keys)

def mergeItems (numberText : Float → Text) (json : T → Json) (keyOf : T → Text) (unitOf : Text → Text) (b l i : List T) :
    Outcome (List T) :=
  gather (atKey (itemAt keyOf) (fun key => mergeUnit numberText true json (unitOf key)) b l i) (itemKeys keyOf b l i)

theorem itemAt_of_notMem {b l i : List T} {key : Text} (h : key ∉ itemKeys keyOf b l i) :
    atKey (itemAt keyOf) (fun key => mergeUnit numberText true json (unitOf key)) b l i key = { value := none } := by
  rw [itemKeys, mem_sortedSet, List.mem_append, List.mem_append, not_or, not_or] at h
  have hb : itemAt keyOf b key = none := Table.find?_eq_none.mpr h.1.1
  have hl : itemAt keyOf l key = none := Table.find?_eq_none.mpr h.1.2
  have hi : itemAt keyOf i key = none := Table.find?_eq_none.mpr h.2
  rw [atKey, hb, hl, hi]
  rfl

theorem keyOf_mergeUnit {b l i : List T} {key : Text} {item : T}
    (h : (mergeUnit numberText true json (unitOf key) (itemAt keyOf b key) (itemAt keyOf l key)
      (itemAt keyOf i key)).value = some item) : keyOf item = key := by
  rcases @mergeUnit_value_cases numberText _ json (unitOf key) (itemAt keyOf b key)
    (itemAt keyOf l key) (itemAt keyOf i key) with hvalue | hvalue
  · exact keyOf_itemAt (hvalue.symm.trans h)
  · exact keyOf_itemAt (hvalue.symm.trans h)

theorem keywise_items : Keywise (itemAt keyOf) (fun key => mergeUnit numberText true json (unitOf key))
    (mergeItems numberText json keyOf unitOf) (itemKeys keyOf) where
  value b l i key := itemAt_filterMap (fun _ _ hitem => keyOf_mergeUnit hitem) (nodup_sortedSet _) fun hkey =>
    congrArg Outcome.value (itemAt_of_notMem hkey)
  conflicts _ _ _ := rfl
  keys_swap b l i := sortedSet_congr fun m => by
    rw [List.mem_append, List.mem_append, List.mem_append, List.mem_append, or_right_comm]
  other b l i key hkey := by rw [itemAt_of_notMem hkey]

theorem mergeKeyed_eq {settle : Option (Text → Option T → Option T → Option (Option T))} {b l i : List T}
    (h : settle = none ∨
      ∀ key, clashes (sameJson numberText json) (itemAt keyOf b key) (itemAt keyOf l key) (itemAt keyOf i key) = false) :
    mergeKeyed numberText true json keyOf unitOf b l i settle = mergeItems numberText json keyOf unitOf b l i := by
  rw [mergeKeyed]
  refine congrArg (fun f => gather f (itemKeys keyOf b l i)) (funext fun key => ?_)
  rcases h with rfl | h
  · dsimp only
    rw [ite_self]
    rfl
  · have hkey : clashes (sameJson numberText json) ((Table.ofList b : Table T keyOf).find? key)
        ((Table.ofList l : Table T keyOf).find? key) ((Table.ofList i : Table T keyOf).find? key) = false := h key
    dsimp only
    rw [hkey, Bool.and_false, if_neg Bool.false_ne_true]
    rfl

theorem mergeKeyed_keeps (settle : Option (Text → Option T → Option T → Option (Option T))) :
    Keeps (SameItems numberText json keyOf) fun b l i => mergeKeyed numberText true json keyOf unitOf b l i settle := by
  refine ⟨fun {b s l i} hone => ?_⟩
  have hclash : ∀ key,
      clashes (sameJson numberText json) (itemAt keyOf b key) (itemAt keyOf l key) (itemAt keyOf i key) = false := by
    intro key
    rcases hone with ⟨rfl, rfl⟩ | ⟨rfl, rfl⟩
    · exact lawful_sameJson.clashes_base_incoming
    · exact lawful_sameJson.clashes_base_local
  have hkeeps := (@keywise_items numberText _ json keyOf unitOf).keeps
    fun key => mergeUnit_keeps (unitOf key)
  rw [mergeKeyed_eq (.inr hclash)]
  exact hkeeps.gives hone

theorem mergeKeyed_swaps :
    Swaps (SameItems numberText json keyOf) fun b l i => mergeKeyed numberText true json keyOf unitOf b l i none := by
  have heq : (fun b l i => mergeKeyed numberText true json keyOf unitOf b l i none) =
      mergeItems numberText json keyOf unitOf := by
    funext b l i
    exact mergeKeyed_eq (.inl rfl)
  rw [heq]
  exact keywise_items.swaps fun key => mergeUnit_swaps (unitOf key)

/-- Each key has one item in a merged list, however clashes are settled. -/
theorem mergeKeyed_nodup {settle : Option (Text → Option T → Option T → Option (Option T))}
    (hsettle : ∀ f, settle = some f → ∀ key l i value, f key l i = some value → value = l ∨ value = i)
    (b l i : List T) : ((mergeKeyed numberText true json keyOf unitOf b l i settle).value.map keyOf).Nodup := by
  rw [mergeKeyed, gather]
  refine nodup_filterMap_keys (fun key item hitem => ?_) (nodup_sortedSet _)
  dsimp only at hitem
  split at hitem
  · next value hsettled =>
    obtain ⟨f, hf, hvalue⟩ := Option.bind_eq_some_iff.mp hsettled
    have hsome : settle = some f := by
      split at hf
      · exact hf
      · cases hf
    rcases hsettle f hsome _ _ _ _ hvalue with rfl | rfl
    · exact keyOf_itemAt hitem
    · exact keyOf_itemAt hitem
  · exact keyOf_mergeUnit hitem

end Keyed

/-! ## Normal forms -/

theorem lookup_pickKeys (keys : List Text) (fields : JsonFields) (key : Text) :
    (pickKeys keys fields).lookup key = if key ∈ keys then fields.lookup key else none := by
  have hcongr : pickKeys keys fields =
      keys.filterMap fun key => (if key ∈ keys then fields.lookup key else none).map (key, ·) :=
    List.filterMap_congr fun key hkey => by rw [if_pos hkey]
  rw [hcongr, lookup_filterMap fun hkey => if_neg hkey]

theorem lookup_mapValues (g : Text → Json → Json) (fields : JsonFields) (key : Text) :
    (fields.map fun field => (field.1, g field.1 field.2)).lookup key = (fields.lookup key).map (g key) := by
  induction fields with
  | nil => rfl
  | cons field fields ih =>
    rw [List.map_cons, List.lookup_cons, List.lookup_cons]
    by_cases hkey : key = field.1
    · rw [hkey, beq_self_eq_true]
      rfl
    · rw [beq_eq_false_iff_ne.mpr hkey]
      exact ih

/-- The values of a record that are sets are in order and without repetition. -/
def isPlainKey (key : Text) : Bool := key = units "acceptedAgentIds" || key = units "lspLanguages"

theorem plainSet_texts (values : List Text) : plainSet (texts values) = texts (sortedSet values) := by
  rw [plainSet, stringList?_texts]

theorem plainSet_plainSet (value : Json) : plainSet (plainSet value) = plainSet value := by
  cases h : stringList? value with
  | none =>
    have hplain : plainSet value = value := by rw [plainSet, h]
    rw [hplain, hplain]
  | some values =>
    have hplain : plainSet value = texts (sortedSet values) := by rw [plainSet, h]
    rw [hplain, plainSet_texts, sortedSet_sortedSet]

structure NormalFields (keys : List Text) (isSet : Text → Bool) (fields : JsonFields) : Prop where
  keys : ∀ key, key ∉ keys → fields.lookup key = none
  plain : ∀ key value, fields.lookup key = some value → isSet key = true → plainSet value = value

theorem lookup_renderOf (fields : JsonFields) (key : Text) :
    (renderOf fields).lookup key =
      (if key ∈ RENDER_KEYS then fields.lookup key else none).map fun value =>
        if isPlainKey key then plainSet value else value := by
  have hmap : renderOf fields = (pickKeys RENDER_KEYS fields).map fun field =>
      (field.1, if isPlainKey field.1 then plainSet field.2 else field.2) :=
    List.map_congr_left fun field _ => by
      change (if isPlainKey field.1 then (field.1, plainSet field.2) else field) = _
      split <;> rfl
  rw [hmap, lookup_mapValues fun key value => if isPlainKey key then plainSet value else value, lookup_pickKeys]

theorem environmentOf_normal (fields : JsonFields) :
    NormalFields ENVIRONMENT_KEYS (fun _ => false) (environmentOf fields) :=
  ⟨fun key hkey => by rw [environmentOf, lookup_pickKeys, if_neg hkey], fun _ _ _ hset => absurd hset Bool.false_ne_true⟩

theorem renderOf_normal (fields : JsonFields) : NormalFields RENDER_KEYS isPlainKey (renderOf fields) := by
  refine ⟨fun key hkey => by rw [lookup_renderOf, if_neg hkey, Option.map_none], fun key value hvalue hset => ?_⟩
  rw [lookup_renderOf, hset] at hvalue
  obtain ⟨source, -, rfl⟩ := Option.map_eq_some_iff.mp hvalue
  exact plainSet_plainSet source

/-- What is normal stays. -/
theorem lookup_environmentOf {fields : JsonFields} {isSet : Text → Bool}
    (h : NormalFields ENVIRONMENT_KEYS isSet fields) (key : Text) :
    (environmentOf fields).lookup key = fields.lookup key := by
  rw [environmentOf, lookup_pickKeys]
  split
  · rfl
  · next hkey => exact (h.keys key hkey).symm

theorem lookup_renderOf_normal {fields : JsonFields} (h : NormalFields RENDER_KEYS isPlainKey fields) (key : Text) :
    (renderOf fields).lookup key = fields.lookup key := by
  rw [lookup_renderOf]
  by_cases hkey : key ∈ RENDER_KEYS
  · rw [if_pos hkey]
    cases hvalue : fields.lookup key with
    | none => rfl
    | some value =>
      rw [Option.map_some]
      split
      · next hset => rw [h.plain key value hvalue hset]
      · rfl
  · rw [if_neg hkey, h.keys key hkey, Option.map_none]

theorem setValue_plain {absent : Bool} {b l i : List Text} {value : Json}
    (h : setValue absent (mergeMembers true b l i) = some value) : plainSet value = value := by
  rw [setValue] at h
  split at h
  · cases h
  · obtain rfl := Option.some.inj h
    rw [plainSet_texts]
    exact congrArg texts (eq_of_sorted (sorted_sortedSet _) (mergeMembers_sorted b l i) (nodup_sortedSet _)
      (mergeMembers_nodup b l i) fun _ => mem_sortedSet)

theorem mergeValue_plain {isSet : Prop} [Decidable isSet] {unit : Text} {b l i : Option Json}
    (hl : ∀ value, l = some value → plainSet value = value) (hi : ∀ value, i = some value → plainSet value = value)
    {value : Json} (h : (mergeValue isSet unit numberText b l i).value = some value) : plainSet value = value := by
  have hunit : (mergeUnit numberText true id unit b l i).value = some value → plainSet value = value := by
    intro hvalue
    rcases @mergeUnit_value_cases numberText _ id unit b l i with heq | heq
    · exact hl value (heq.symm.trans hvalue)
    · exact hi value (heq.symm.trans hvalue)
  rw [mergeValue] at h
  split at h
  · by_cases hsets : MergesSets b l i
    · obtain ⟨mb, ml, mi, -, -, -, heq⟩ := @mergeSetValue_of_sets numberText unit _ _ _ hsets
      rw [heq] at h
      exact setValue_plain h
    · rw [mergeSetValue_of_not_sets unit hsets] at h
      exact hunit h
  · exact hunit h

theorem mergeObjectFile_normal {file : Text} {setKeys keys : List Text} {isSet : Text → Bool}
    {b l i : Option JsonFields} (hb : ∀ f, b = some f → NormalFields keys isSet f)
    (hl : ∀ f, l = some f → NormalFields keys isSet f) (hi : ∀ f, i = some f → NormalFields keys isSet f)
    {merged : JsonFields} (h : (mergeObjectFile numberText true file b l i setKeys).value = some merged) :
    NormalFields keys isSet merged := by
  by_cases hnone : l = none ∨ i = none
  · rw [mergeObjectFile_none b l i hnone] at h
    rcases @mergeUnit_value_cases numberText _ Json.obj file b l i with heq | heq
    · exact hl merged (heq.symm.trans h)
    · exact hi merged (heq.symm.trans h)
  · rw [not_or] at hnone
    obtain ⟨l, rfl⟩ := Option.ne_none_iff_exists'.mp hnone.1
    obtain ⟨i, rfl⟩ := Option.ne_none_iff_exists'.mp hnone.2
    rw [mergeObjectFile_some] at h
    obtain rfl := Option.some.inj h
    have hvalue := (@keywise_mergeKeys numberText file setKeys).value (b.getD []) l i
    refine ⟨fun key hkey => (hvalue key).trans ?_, fun key value hsome hset => ?_⟩
    · have hbase : field (b.getD []) key = none := by
        cases b with
        | none => rfl
        | some b => exact (hb b rfl).keys key hkey
      have hlocal : field l key = none := (hl l rfl).keys key hkey
      have hincoming : field i key = none := (hi i rfl).keys key hkey
      rw [atKey, hbase, hlocal, hincoming, mergeValue_none]
    · exact mergeValue_plain (fun v hv => (hl l rfl).plain key v hv hset) (fun v hv => (hi i rfl).plain key v hv hset)
        ((hvalue key).symm.trans hsome)

/-! ## Settings -/

theorem lookup_eq_some_iff {fields : JsonFields} (h : (fields.map Prod.fst).Nodup) {key : Text} {value : Json} :
    fields.lookup key = some value ↔ (key, value) ∈ fields := by
  induction fields with
  | nil => exact iff_of_false (Option.some_ne_none value).symm List.not_mem_nil
  | cons field fields ih =>
    obtain ⟨hfirst, hrest⟩ := List.nodup_cons.mp h
    rw [List.lookup_cons, List.mem_cons]
    by_cases hkey : key = field.1
    · subst hkey
      rw [beq_self_eq_true]
      dsimp only
      rw [Option.some.injEq]
      constructor
      · rintro rfl
        exact .inl rfl
      · rintro (heq | hmem)
        · exact (congrArg Prod.snd heq).symm
        · exact absurd (List.mem_map_of_mem hmem) hfirst
    · rw [beq_eq_false_iff_ne.mpr hkey]
      refine (ih hrest).trans (or_iff_right fun heq => hkey (congrArg Prod.fst heq)).symm

theorem lookup_of_perm {fields fields' : JsonFields} (hperm : fields.Perm fields') (h : (fields.map Prod.fst).Nodup)
    (key : Text) : fields.lookup key = fields'.lookup key := by
  refine Option.ext fun value => ?_
  rw [lookup_eq_some_iff h, lookup_eq_some_iff ((hperm.map _).nodup_iff.mp h), hperm.mem_iff]

theorem lookup_normalizeSettings (settings : JsonFields) (name : Text) :
    (normalizeSettings settings).lookup name =
      ((settings.insertionSort nameBefore).lookup name).map fun value =>
        if name ∈ SET_SETTINGS then plainSet value else value := by
  have hmap : normalizeSettings settings = (settings.insertionSort nameBefore).map fun setting =>
      (setting.1, if setting.1 ∈ SET_SETTINGS then plainSet setting.2 else setting.2) :=
    List.map_congr_left fun setting _ => by
      split <;> rfl
  rw [hmap, lookup_mapValues fun name value => if name ∈ SET_SETTINGS then plainSet value else value]

structure NormalSettings (settings : JsonFields) : Prop where
  nodup : (settings.map Prod.fst).Nodup
  plain : ∀ name value, settings.lookup name = some value → name ∈ SET_SETTINGS → plainSet value = value

theorem normalizeSettings_plain (settings : JsonFields) (name : Text) (value : Json)
    (h : (normalizeSettings settings).lookup name = some value) (hset : name ∈ SET_SETTINGS) : plainSet value = value := by
  rw [lookup_normalizeSettings] at h
  obtain ⟨source, -, rfl⟩ := Option.map_eq_some_iff.mp h
  rw [if_pos hset]
  exact plainSet_plainSet source

theorem lookup_normalizeSettings_normal {settings : JsonFields} (h : NormalSettings settings) (name : Text) :
    (normalizeSettings settings).lookup name = settings.lookup name := by
  rw [lookup_normalizeSettings, ← lookup_of_perm (List.perm_insertionSort nameBefore settings).symm h.nodup]
  cases hvalue : settings.lookup name with
  | none => rfl
  | some value =>
    rw [Option.map_some]
    split
    · next hset => rw [h.plain name value hvalue hset]
    · rfl

section Settings

variable (order : Text → Text → WatermarkOrder) {b l i : JsonFields}

attribute [local instance] lawfulBEq_units in
def mergeNamed (numberText : Float → Text) (order : Text → Text → WatermarkOrder) (name : Text) (b l i : Option Json) :
    Outcome (Option Json) :=
  if name = REVIEW_WATERMARK_SETTING then mergeWatermarks order b l i
  else mergeValue (name ∈ SET_SETTINGS) (settingFileName name) numberText b l i

theorem mergeSettings_eq (b l i : JsonFields) :
    mergeSettings numberText true order b l i = mergeFields (mergeNamed numberText order) b l i := by
  rw [mergeSettings, mergeFields, fieldKeys, sortedSet_congr fun name => ?_]
  · rfl
  · rw [List.append_assoc, List.mem_append, List.mem_append (t := b.map Prod.fst), or_comm]

theorem keywise_settings :
    Keywise field (mergeNamed numberText order) (fun b l i => mergeSettings numberText true order b l i) fieldKeys := by
  simp only [mergeSettings_eq]
  refine keywise_fields fun name => ?_
  rw [mergeNamed]
  split
  · rfl
  · exact mergeValue_none _ _

theorem mergeSettings_normal (hl : ∀ name value, field l name = some value → name ∈ SET_SETTINGS → plainSet value = value)
    (hi : ∀ name value, field i name = some value → name ∈ SET_SETTINGS → plainSet value = value) :
    NormalSettings (mergeSettings numberText true order b l i).value := by
  refine ⟨?_, fun name value hvalue hset => ?_⟩
  · rw [mergeSettings_eq]
    exact nodup_mergeFields b l i
  · have hname : name ≠ REVIEW_WATERMARK_SETTING := by
      rintro rfl
      revert hset
      decide
    have hmerged := ((keywise_settings order).value b l i name).symm.trans hvalue
    rw [atKey, mergeNamed, if_neg hname] at hmerged
    exact mergeValue_plain (fun v hv => hl name v hv hset) (fun v hv => hi name v hv hset) hmerged

variable {order}

theorem mergeWatermarks_conflicts {base localSide incoming : Option Json} {c : ProjectStateConflict}
    (h : c ∈ (mergeWatermarks order base localSide incoming).conflicts) : IsWatermarkConflict c := by
  obtain ⟨key, hkey, hc⟩ := List.mem_filterMap.mp h
  refine ⟨key, hkey, ?_⟩
  split at hc
  · split at hc
    · obtain rfl := Option.some.inj hc
      rfl
    · cases hc
  · cases hc

/-- Which of two marks is ahead, as the other side asks it. -/
def WatermarkOrder.swap : WatermarkOrder → WatermarkOrder
  | .localSide => .incoming
  | .incoming => .localSide
  | .incomparable => .incomparable

theorem mergeWatermarks_swap (horder : ∀ m n, order n m = (order m n).swap) (base localSide incoming : Option Json) :
    (mergeWatermarks order base incoming localSide).conflicts =
      (mergeWatermarks order base localSide incoming).conflicts.map ProjectStateConflict.swap := by
  have hincomparable : ∀ m n, order n m = .incomparable ↔ order m n = .incomparable := by
    intro m n
    rw [horder m n]
    cases order m n <;> decide
  rw [mergeWatermarks, mergeWatermarks, List.map_filterMap]
  refine List.filterMap_congr fun key _ => ?_
  cases (watermarksOf localSide).lookup key with
  | none => cases (watermarksOf incoming).lookup key <;> rfl
  | some m =>
    cases (watermarksOf incoming).lookup key with
    | none => rfl
    | some n =>
      dsimp only
      simp only [ne_comm (a := n), hincomparable m n]
      split <;> rfl

/-- Settings with the same values, marks aside. -/
def SameSettings (numberText : Float → Text) (a b : JsonFields) : Prop :=
  ∀ name, name ≠ REVIEW_WATERMARK_SETTING → SameUnit numberText (name ∈ SET_SETTINGS) (field a name) (field b name)

theorem mergeNamed_of_ne {name : Text} (h : name ≠ REVIEW_WATERMARK_SETTING) :
    mergeNamed numberText order name = mergeValue (name ∈ SET_SETTINGS) (settingFileName name) numberText :=
  funext fun _ => funext fun _ => funext fun _ => if_neg h

theorem mergeNamed_marks : mergeNamed numberText order REVIEW_WATERMARK_SETTING = mergeWatermarks order :=
  funext fun _ => funext fun _ => funext fun _ => if_pos rfl

theorem mergeSettings_keeps :
    Keeps (SameSettings numberText) fun b l i => mergeSettings numberText true order b l i := by
  refine @Keywise.keeps _ _ _ _ _ (fun name a b => name ≠ REVIEW_WATERMARK_SETTING →
    SameUnit numberText (name ∈ SET_SETTINGS) a b) _ (keywise_settings order) fun name => ?_
  by_cases hname : name = REVIEW_WATERMARK_SETTING
  · subst hname
    rw [mergeNamed_marks]
    exact ⟨fun _ => ⟨fun hne => absurd rfl hne, fun _ => mergeWatermarks_conflicts⟩⟩
  · rw [mergeNamed_of_ne hname]
    exact (mergeValue_keeps _ _).mono fun hsame _ => hsame

theorem mergeSettings_swaps (horder : ∀ m n, order n m = (order m n).swap) :
    Swaps (SameSettings numberText) fun b l i => mergeSettings numberText true order b l i := by
  refine @Keywise.swaps _ _ _ _ _ (fun name a b => name ≠ REVIEW_WATERMARK_SETTING →
    SameUnit numberText (name ∈ SET_SETTINGS) a b) _ (keywise_settings order) fun name => ?_
  by_cases hname : name = REVIEW_WATERMARK_SETTING
  · subst hname
    rw [mergeNamed_marks]
    exact ⟨fun b l i => mergeWatermarks_swap horder b l i, fun _ _ _ _ hne => absurd rfl hne⟩
  · rw [mergeNamed_of_ne hname]
    have h := @mergeValue_swaps numberText (name ∈ SET_SETTINGS) _ (settingFileName name)
    exact ⟨h.conflicts, fun b l i hnone _ => h.value b l i hnone⟩

end Settings

/-! ## Records -/

/-- Records that hold the same for every unit but the watermarks. -/
structure SameRecord (numberText : Float → Text) (r s : ProjectStateRecord) : Prop where
  environment : SameFile numberText [] r.environment s.environment
  render : SameFile numberText RENDER_SET_KEYS r.render s.render
  cli : sortedSet r.cli = sortedSet s.cli
  settings : SameSettings numberText r.settings s.settings
  claims : SameItems numberText ProjectStateClaim.json ProjectStateClaim.path r.claims s.claims
  bundles : SameItems numberText ProjectStateBundle.json ProjectStateBundle.source r.bundles s.bundles

/-- What a side is once normalised. -/
structure PlainRecord (r : ProjectStateRecord) : Prop where
  environment : ∀ f, r.environment = some f → NormalFields ENVIRONMENT_KEYS (fun _ => false) f
  render : ∀ f, r.render = some f → NormalFields RENDER_KEYS isPlainKey f
  settings : ∀ name value, field r.settings name = some value → name ∈ SET_SETTINGS → plainSet value = value

/-- A record that its normal form holds the same as. -/
structure NormalRecord (r : ProjectStateRecord) : Prop extends PlainRecord r where
  names : (r.settings.map Prod.fst).Nodup
  claims : (r.claims.map ProjectStateClaim.path).Nodup
  bundles : (r.bundles.map ProjectStateBundle.source).Nodup

theorem itemAt_of_perm {T : Type} {keyOf : T → Text} {items items' : List T} (hperm : items.Perm items')
    (h : (items.map keyOf).Nodup) (key : Text) : itemAt keyOf items key = itemAt keyOf items' key := by
  refine Option.ext fun item => ?_
  rw [itemAt, itemAt, Table.find?_ofList h, Table.find?_ofList ((hperm.map _).nodup_iff.mp h), hperm.mem_iff]

theorem SameFile.map {setKeys : List Text} {a c : Option JsonFields} {f : JsonFields → JsonFields}
    (h : SameFile numberText setKeys a c) (hf : ∀ x, a = some x → ∀ key, (f x).lookup key = x.lookup key) :
    SameFile numberText setKeys (a.map f) c := by
  rcases h with ⟨rfl, rfl⟩ | ⟨x, y, rfl, rfl, hsame⟩
  · exact .inl ⟨rfl, rfl⟩
  · refine .inr ⟨f x, y, rfl, rfl, fun key => ?_⟩
    rw [field, hf x rfl]
    exact hsame key

theorem SameRecord.normalize {r s : ProjectStateRecord} (h : SameRecord numberText r s) (hr : NormalRecord r) :
    SameRecord numberText (normalizeProjectState r) s where
  environment := h.environment.map fun x hx => lookup_environmentOf (hr.environment x hx)
  render := h.render.map fun x hx => lookup_renderOf_normal (hr.render x hx)
  cli := (sortedSet_sortedSet r.cli).trans h.cli
  settings name hname := by
    rw [normalizeProjectState, field, lookup_normalizeSettings_normal ⟨hr.names, hr.settings⟩]
    exact h.settings name hname
  claims key := by
    rw [normalizeProjectState, ← itemAt_of_perm (List.perm_insertionSort _ r.claims).symm hr.claims]
    exact h.claims key
  bundles key := by
    rw [normalizeProjectState, ← itemAt_of_perm (List.perm_insertionSort _ r.bundles).symm hr.bundles]
    exact h.bundles key

theorem SameRecord.symm {r s : ProjectStateRecord} (h : SameRecord numberText r s) : SameRecord numberText s r where
  environment := h.environment.symm
  render := h.render.symm
  cli := h.cli.symm
  settings name hname := (h.settings name hname).symm
  claims key := lawful_sameJson.symm (h.claims key)
  bundles key := lawful_sameJson.symm (h.bundles key)

/-! ## Merges -/

section Merges

variable (numberText) (shortHash : Text → Text) (order : Text → Text → WatermarkOrder)
  (diskHash : Option (Text → Option Text)) (b l i : ProjectStateRecord)

/-- The merge of normal sides, not yet in normal form. -/
def mergeSides : Outcome ProjectStateRecord :=
  let environment := mergeObjectFile numberText true ENVIRONMENT_UNIT b.environment l.environment i.environment []
  let render := mergeObjectFile numberText true RENDER_UNIT b.render l.render i.render RENDER_SET_KEYS
  let settings := mergeSettings numberText true order b.settings l.settings i.settings
  let claims := mergeKeyed numberText true ProjectStateClaim.json ProjectStateClaim.path (claimFileName shortHash)
    b.claims l.claims i.claims (diskHash.map settleByDisk)
  let bundles := mergeKeyed numberText true ProjectStateBundle.json ProjectStateBundle.source
    (bundleFileName shortHash) b.bundles l.bundles i.bundles none
  { value := ⟨environment.value, render.value, mergeMembers true b.cli l.cli i.cli, settings.value, claims.value,
      bundles.value⟩
    conflicts := environment.conflicts ++ render.conflicts ++ settings.conflicts ++ claims.conflicts ++
      bundles.conflicts }

/-- The record is what the side holds, and nothing but marks is a question. -/
def MergesTo (m : ProjectStateMerge) (side : ProjectStateRecord) : Prop :=
  SameRecord numberText m.merged (normalizeProjectState side) ∧ ∀ c ∈ m.conflicts, IsWatermarkConflict c

variable {b l i}

theorem normalizeProjectState_plain (r : ProjectStateRecord) : PlainRecord (normalizeProjectState r) where
  environment f hf := by
    obtain ⟨source, -, rfl⟩ := Option.map_eq_some_iff.mp hf
    exact environmentOf_normal source
  render f hf := by
    obtain ⟨source, -, rfl⟩ := Option.map_eq_some_iff.mp hf
    exact renderOf_normal source
  settings := normalizeSettings_plain r.settings

theorem mergeSides_normal (hb : PlainRecord b) (hl : PlainRecord l) (hi : PlainRecord i) :
    NormalRecord (mergeSides numberText shortHash order diskHash b l i).value where
  environment _ h := mergeObjectFile_normal hb.environment hl.environment hi.environment h
  render _ h := mergeObjectFile_normal hb.render hl.render hi.render h
  settings := (mergeSettings_normal order hl.settings hi.settings).plain
  names := (mergeSettings_normal order hl.settings hi.settings).nodup
  claims := by
    refine mergeKeyed_nodup (fun f hf key l i value hvalue => ?_) _ _ _
    obtain ⟨disk, -, rfl⟩ := Option.map_eq_some_iff.mp hf
    rw [settleByDisk] at hvalue
    split at hvalue
    · exact .inr (Option.some.inj hvalue).symm
    split at hvalue
    · exact .inl (Option.some.inj hvalue).symm
    · cases hvalue
  bundles := mergeKeyed_nodup (fun f hf => absurd hf.symm (Option.some_ne_none f)) _ _ _

theorem mergeSides_keeps :
    Keeps (SameRecord numberText) fun b l i => mergeSides numberText shortHash order diskHash b l i := by
  refine ⟨fun {b s l i} hone => ?_⟩
  have henvironment := (@mergeObjectFile_keeps numberText ENVIRONMENT_UNIT []).gives
    (hone.map ProjectStateRecord.environment)
  have hrender := (@mergeObjectFile_keeps numberText RENDER_UNIT RENDER_SET_KEYS).gives
    (hone.map ProjectStateRecord.render)
  have hcli := mergeMembers_keeps (hone.map ProjectStateRecord.cli)
  have hsettings := (@mergeSettings_keeps numberText order).gives
    (hone.map ProjectStateRecord.settings)
  have hclaims := (@mergeKeyed_keeps numberText _ ProjectStateClaim.json ProjectStateClaim.path (claimFileName shortHash)
    (diskHash.map settleByDisk)).gives
    (hone.map ProjectStateRecord.claims)
  have hbundles := (@mergeKeyed_keeps numberText _ ProjectStateBundle.json ProjectStateBundle.source
    (bundleFileName shortHash) none).gives (hone.map ProjectStateRecord.bundles)
  constructor
  · exact ⟨henvironment.value, hrender.value, (congrArg sortedSet hcli).trans (sortedSet_sortedSet s.cli),
      hsettings.value, hclaims.value, hbundles.value⟩
  · refine List.forall_mem_append.mpr ⟨List.forall_mem_append.mpr ⟨List.forall_mem_append.mpr ⟨List.forall_mem_append.mpr
      ⟨henvironment.conflicts, hrender.conflicts⟩, hsettings.conflicts⟩, hclaims.conflicts⟩, hbundles.conflicts⟩

theorem mergeSides_swaps (horder : ∀ m n, order n m = (order m n).swap) :
    Swaps (SameRecord numberText) fun b l i => mergeSides numberText shortHash order none b l i where
  conflicts b l i := by
    rw [mergeSides, mergeSides]
    dsimp only [Option.map_none]
    rw [mergeObjectFile_swaps.conflicts b.environment l.environment i.environment,
      mergeObjectFile_swaps.conflicts b.render l.render i.render, (mergeSettings_swaps horder).conflicts b.settings,
      mergeKeyed_swaps.conflicts b.claims l.claims i.claims, mergeKeyed_swaps.conflicts b.bundles l.bundles i.bundles,
      List.map_append, List.map_append, List.map_append, List.map_append]
  value b l i hnone := by
    rw [mergeSides] at hnone
    dsimp only [Option.map_none] at hnone
    rw [List.append_eq_nil_iff, List.append_eq_nil_iff, List.append_eq_nil_iff, List.append_eq_nil_iff] at hnone
    obtain ⟨⟨⟨⟨henvironment, hrender⟩, hsettings⟩, hclaims⟩, hbundles⟩ := hnone
    exact
      { environment := mergeObjectFile_swaps.value _ _ _ henvironment
        render := mergeObjectFile_swaps.value _ _ _ hrender
        cli := congrArg sortedSet (mergeMembers_comm _ _ _)
        settings := (mergeSettings_swaps horder).value _ _ _ hsettings
        claims := mergeKeyed_swaps.value _ _ _ hclaims
        bundles := mergeKeyed_swaps.value _ _ _ hbundles }

variable (b l i)

theorem SameRecord.merged {side : ProjectStateRecord}
    (h : SameRecord numberText (mergeSides numberText shortHash order diskHash (normalizeProjectState b)
      (normalizeProjectState l) (normalizeProjectState i)).value side) :
    SameRecord numberText (mergeProjectState numberText shortHash ⟨some b, l, i, diskHash, order⟩).merged side :=
  h.normalize (mergeSides_normal numberText shortHash order diskHash (normalizeProjectState_plain b)
    (normalizeProjectState_plain l) (normalizeProjectState_plain i))

theorem merges_to {side : ProjectStateRecord} (hone : OneChanged b side l i) :
    MergesTo numberText (mergeProjectState numberText shortHash ⟨some b, l, i, diskHash, order⟩) side := by
  have h := (mergeSides_keeps numberText shortHash order diskHash).gives (hone.map normalizeProjectState)
  exact ⟨h.value.merged numberText shortHash order diskHash b l i, h.conflicts⟩

/-- Where only the local side changed since the base, the merge is the local side, and only marks are a question. -/
theorem merge_keeps_local :
    MergesTo numberText (mergeProjectState numberText shortHash ⟨some b, l, b, diskHash, order⟩) l :=
  merges_to numberText shortHash order diskHash b l b (.inl ⟨rfl, rfl⟩)

/-- Where only the incoming side changed since the base, the merge is the incoming side. -/
theorem merge_keeps_incoming :
    MergesTo numberText (mergeProjectState numberText shortHash ⟨some b, b, i, diskHash, order⟩) i :=
  merges_to numberText shortHash order diskHash b b i (.inr ⟨rfl, rfl⟩)

/-- The sides may change places: the same units conflict, and without a conflict the merges are the same. -/
theorem merge_swap (horder : ∀ m n, order n m = (order m n).swap) :
    (mergeProjectState numberText shortHash ⟨some b, i, l, none, order⟩).conflicts =
        (mergeProjectState numberText shortHash ⟨some b, l, i, none, order⟩).conflicts.map ProjectStateConflict.swap ∧
      ((mergeProjectState numberText shortHash ⟨some b, l, i, none, order⟩).conflicts = [] →
        SameRecord numberText (mergeProjectState numberText shortHash ⟨some b, i, l, none, order⟩).merged
          (mergeProjectState numberText shortHash ⟨some b, l, i, none, order⟩).merged) := by
  have h := mergeSides_swaps numberText shortHash order horder
  refine ⟨h.conflicts _ _ _, fun hnone => ?_⟩
  exact ((h.value _ _ _ hnone).merged numberText shortHash order none b i l).symm.merged numberText shortHash order none b l i
    |>.symm

end Merges

/-- Two teammates name one bundle differently. -/
theorem merge_swap_bundles :
    let named (name : String) : ProjectStateRecord :=
      { emptyProjectState with bundles := [⟨units "https://example.org/rules.git", units name⟩] }
    let merge (l i : ProjectStateRecord) : ProjectStateMerge :=
      mergeProjectState (fun _ => []) id ⟨some emptyProjectState, l, i, none, fun _ _ => .incomparable⟩
    (merge (named "team") (named "house")).conflicts =
        (merge (named "house") (named "team")).conflicts.map ProjectStateConflict.swap ∧
      ((merge (named "house") (named "team")).conflicts = [] →
        SameRecord (fun _ => []) (merge (named "team") (named "house")).merged
          (merge (named "house") (named "team")).merged) :=
  merge_swap (fun _ => []) id (fun _ _ => .incomparable) emptyProjectState _ _ fun _ _ => rfl

end Haive.ProjectState

import Haive.Rag.Blocks

/-!
# Ids of sections

The ids that `_rag-chunkers.ts` gives: no id has a `:`, so that a key can be split at its first one, and the
`~` of the nth section that wants an id keeps it apart from every id that was wanted.
-/

namespace Haive.Rag

open Lib.Units

variable {a b id : Text} {m n : Nat}

/-- An id that an extractor wants: without the `~` that numbers its repeats, and without the `:` of a key. -/
structure Wanted (id : Text) : Prop where
  plain : Plain id
  keyable : ch ':' ∉ id

/-! ## Numbered ids -/

theorem numberedId_of_ne (hn : n ≠ 1) : numberedId id n = id ++ ch '~' :: numeral n := if_neg hn

theorem mem_numeral_ne {u v : UInt16} (h : u ∈ numeral n) (hv : isDigit v = false) : u ≠ v := by
  rintro rfl
  exact Bool.eq_false_iff.mp hv (isDigit_of_mem_numeral h)

theorem tilde_notMem_numeral (n : Nat) : ch '~' ∉ numeral n := fun h => mem_numeral_ne h rfl rfl

theorem colon_notMem_numeral (n : Nat) : ch ':' ∉ numeral n := fun h => mem_numeral_ne h rfl rfl

theorem Plain.notMem (h : Plain id) : ch '~' ∉ id := fun hmem => h _ hmem rfl

/-- Two sections have the same id only if they are the same repeat of one id. -/
theorem numberedId_inj (ha : Plain a) (hb : Plain b) (h : numberedId a m = numberedId b n) : a = b ∧ m = n := by
  rcases eq_or_ne m 1 with rfl | hm <;> rcases eq_or_ne n 1 with rfl | hn
  · exact ⟨h, rfl⟩
  · rw [numberedId_of_ne hn] at h
    have hmem : ch '~' ∈ numberedId a 1 := h ▸ List.mem_append_right _ List.mem_cons_self
    exact absurd hmem ha.notMem
  · rw [numberedId_of_ne hm] at h
    have hmem : ch '~' ∈ numberedId b 1 := h ▸ List.mem_append_right _ List.mem_cons_self
    exact absurd hmem hb.notMem
  · rw [numberedId_of_ne hm, numberedId_of_ne hn] at h
    obtain ⟨hid, -, hnumeral⟩ := (List.append_cons_inj_of_notMem hb.notMem (tilde_notMem_numeral n)).mp h.symm
    exact ⟨hid.symm, (numeral_injective hnumeral).symm⟩

theorem colon_notMem_numberedId (h : ch ':' ∉ id) (n : Nat) : ch ':' ∉ numberedId id n := by
  rw [numberedId]
  split
  · exact h
  · intro hmem
    rcases List.mem_append.mp hmem with hmem | hmem
    · exact h hmem
    · rcases List.mem_cons.mp hmem with heq | hmem
      · exact absurd heq (by decide)
      · exact colon_notMem_numeral n hmem

/-! ## The ids of one file -/

def sectionIds (sections : List RagSection) : List Text := sections.map RagSection.sectionId

/-- The ids from where `seen` counts on: a later repeat each, so no id comes twice. -/
theorem uniqueFrom_ids {sections : List RagSection} (hplain : ∀ s ∈ sections, Plain s.sectionId) (seen : Text → Nat) :
    (sectionIds (uniqueFrom seen sections)).Nodup ∧
      ∀ id ∈ sectionIds (uniqueFrom seen sections),
        ∃ s ∈ sections, ∃ n, seen s.sectionId < n ∧ id = numberedId s.sectionId n := by
  induction sections generalizing seen with
  | nil => exact ⟨List.nodup_nil, fun id hid => absurd hid List.not_mem_nil⟩
  | cons first rest ih =>
    obtain ⟨hnodup, hids⟩ := ih (fun s hs => hplain s (List.mem_cons_of_mem first hs))
      (fun id => if id = first.sectionId then seen first.sectionId + 1 else seen id)
    rw [uniqueFrom, sectionIds, List.map_cons]
    refine ⟨List.nodup_cons.mpr ⟨fun hmem => ?_, hnodup⟩, fun id hid => ?_⟩
    · obtain ⟨s, hs, n, hlt, heq⟩ := hids _ hmem
      obtain ⟨hid, rfl⟩ := numberedId_inj (hplain first List.mem_cons_self) (hplain s (List.mem_cons_of_mem first hs)) heq
      rw [if_pos hid.symm] at hlt
      exact Nat.lt_irrefl _ hlt
    · rcases List.mem_cons.mp hid with rfl | hid
      · exact ⟨first, List.mem_cons_self, _, Nat.lt_succ_self _, rfl⟩
      · obtain ⟨s, hs, n, hlt, heq⟩ := hids id hid
        refine ⟨s, List.mem_cons_of_mem first hs, n, ?_, heq⟩
        split at hlt
        · next hsame => exact hsame ▸ Nat.lt_of_succ_lt hlt
        · exact hlt

/-- The ids are pairwise distinct, and none has a `:`. -/
structure UniqueIds (ids : List Text) : Prop where
  nodup : ids.Nodup
  keyable : ∀ id ∈ ids, ch ':' ∉ id

theorem uniqueSectionIds_unique {sections : List RagSection} (h : ∀ s ∈ sections, Wanted s.sectionId) :
    UniqueIds (sectionIds (uniqueSectionIds sections)) := by
  obtain ⟨hnodup, hids⟩ := uniqueFrom_ids (fun s hs => (h s hs).plain) (fun _ => 0)
  refine ⟨hnodup, fun id hid => ?_⟩
  obtain ⟨s, hs, n, -, rfl⟩ := hids id hid
  exact colon_notMem_numberedId (h s hs).keyable n

/-! ## The ids of assembled sections -/

theorem safeSectionId_wanted (h : Plain id) : Wanted (safeSectionId id) := by
  have hmapped : ∀ u ∈ safeSectionId id, ∃ v ∈ id, (if v = ch ':' then ch '-' else v) = u :=
    fun u hu => List.mem_map.mp hu
  refine ⟨fun u hu => ?_, fun hmem => ?_⟩
  · obtain ⟨v, hv, rfl⟩ := hmapped u hu
    split
    · decide
    · exact h v hv
  · obtain ⟨v, -, heq⟩ := hmapped _ hmem
    split at heq
    · exact absurd heq (by decide)
    · next hne => exact hne heq

theorem gapId_wanted (n : Nat) : Wanted (units "chunk-" ++ numeral n) := by
  refine ⟨?_, fun hmem => ?_⟩
  · have hchunk : Plain (units "chunk-") := plain_of_all (by decide)
    exact hchunk.append fun u hu => mem_numeral_ne hu rfl
  · rcases List.mem_append.mp hmem with hmem | hmem
    · exact absurd hmem (by decide)
    · exact colon_notMem_numeral n hmem

def Walk.WantedIds (w : Walk) : Prop := ∀ s ∈ w.slices, Wanted s.sectionId

variable {w : Walk} {holdsWord : Text → Bool} {content : Text}

theorem Walk.WantedIds.push (h : w.WantedIds) {s : SectionSlice} (hs : Wanted s.sectionId) (gapIndex : Nat) :
    Walk.WantedIds { slices := w.slices ++ [s], gapIndex } :=
  List.forall_mem_append.mpr ⟨h, List.forall_mem_singleton.mpr hs⟩

theorem Walk.WantedIds.extend (h : w.WantedIds) (stop : Nat) : (w.extend stop).WantedIds := by
  rw [Walk.extend]
  split
  · exact h
  · next previous hlast =>
    have hfront : ∀ s ∈ w.slices.dropLast, Wanted s.sectionId := fun s hs => h s (List.mem_of_mem_dropLast hs)
    exact List.forall_mem_append.mpr ⟨hfront, List.forall_mem_singleton.mpr (h previous (List.mem_of_getLast? hlast))⟩

theorem placeGap_wanted (h : w.WantedIds) (start stop : Nat) (hasNext : Bool) :
    (placeGap holdsWord content w start stop hasNext).1.WantedIds := by
  rw [placeGap]
  dsimp only
  split
  · exact h
  split
  · exact h.push (gapId_wanted _) _
  split
  · exact h.extend _
  · generalize (if w.slices = [] then 0 else closingLength (slice content start stop)) = closing
    split
    · exact h.extend _
    · exact h

theorem placeRanges_wanted {ranges : List SectionRange} (hranges : PlainRanges ranges) (h : w.WantedIds) (cursor : Nat) :
    (placeRanges holdsWord content w cursor ranges).1.WantedIds := by
  induction ranges generalizing w cursor with
  | nil => exact h
  | cons r rest ih =>
    obtain ⟨hr, hrest⟩ := List.forall_mem_cons.mp hranges
    rw [placeRanges]
    dsimp only
    split
    · exact ih hrest h _
    · exact ih hrest ((placeGap_wanted h _ _ _).push (safeSectionId_wanted hr) _) _

theorem assembleSections_unique {ranges : List SectionRange} (hranges : PlainRanges ranges) :
    UniqueIds (sectionIds (assembleSections holdsWord content ranges)) := by
  have hkept : PlainRanges (keptRanges ranges) := fun r hr => hranges r (mem_keptRanges.mp hr).1
  have hnone : Walk.WantedIds {} := fun s hs => absurd hs List.not_mem_nil
  refine uniqueSectionIds_unique fun s hs => ?_
  obtain ⟨slice, hslice, rfl⟩ := List.mem_map.mp hs
  exact placeGap_wanted (placeRanges_wanted hkept hnone 0) _ _ _ slice hslice

end Haive.Rag

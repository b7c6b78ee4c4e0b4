import Mathlib.Data.List.Basic

/-!
# Leading bits

A set of texts of bits given by what they start with, as a routing table or a block list gives one. A text
that starts with a fixed head is judged by the rules that extend that head, and by what they say of the bits
behind it (`listed_append`); two heads with the same such rules give the same answers.
-/

namespace Lib.LeadingBits

abbrev Bits := List Bool

def listed (rules : List Bits) (x : Bits) : Bool := rules.any (·.isPrefixOf x)

/-- The two differ at a place that both have. -/
def apart : Bits → Bits → Bool
  | b :: x, c :: y => b != c || apart x y
  | _, _ => false

def behind (head : Bits) (rules : List Bits) : List Bits :=
  (rules.filter (head.isPrefixOf ·)).map (·.drop head.length)

theorem not_isPrefixOf_of_apart {rule head : Bits} (h : apart rule head = true) (rest : Bits) :
    rule.isPrefixOf (head ++ rest) = false := by
  induction rule generalizing head with
  | nil => cases h
  | cons b rule ih =>
    cases head with
    | nil => cases h
    | cons c head =>
      rw [List.cons_append, List.isPrefixOf]
      rcases Bool.or_eq_true_iff.mp h with hne | happart
      · rw [beq_false_of_ne (bne_iff_ne.mp hne), Bool.false_and]
      · rw [ih happart, Bool.and_false]

theorem isPrefixOf_append_left (head rule rest : Bits) :
    (head ++ rule).isPrefixOf (head ++ rest) = rule.isPrefixOf rest := by
  induction head with
  | nil => rfl
  | cons b head ih => rw [List.cons_append, List.cons_append, List.isPrefixOf, beq_self_eq_true, Bool.true_and, ih]

theorem isPrefixOf_append_right {rule x : Bits} (h : rule.length ≤ x.length) (rest : Bits) :
    rule.isPrefixOf (x ++ rest) = rule.isPrefixOf x := by
  rw [Bool.eq_iff_iff, List.isPrefixOf_iff_prefix, List.isPrefixOf_iff_prefix]
  exact ⟨fun hstart => List.prefix_of_prefix_length_le hstart (List.prefix_append x rest) h,
    fun hstart => hstart.trans (List.prefix_append x rest)⟩

def splits (width : Nat) (head : Bits) (rules : List Bits) : Bool :=
  rules.all fun rule => apart rule head || head.isPrefixOf rule && decide (rule.length ≤ head.length + width)

theorem splits_iff {width : Nat} {head : Bits} {rules : List Bits} : splits width head rules = true ↔
    ∀ rule ∈ rules, apart rule head = true ∨ head <+: rule ∧ rule.length ≤ head.length + width := by
  simp [splits]

theorem listed_append {width : Nat} {head : Bits} {rules : List Bits} (h : splits width head rules = true) {a : Bits}
    (ha : a.length = width) (rest : Bits) : listed rules (head ++ a ++ rest) = listed (behind head rules) a := by
  have h := splits_iff.mp h
  have hrule : ∀ rule, head <+: rule → rule.length ≤ head.length + width →
      rule.isPrefixOf (head ++ a ++ rest) = (rule.drop head.length).isPrefixOf a := by
    rintro rule ⟨tail, rfl⟩ hlength
    rw [List.drop_left, List.append_assoc, isPrefixOf_append_left]
    refine isPrefixOf_append_right ?_ rest
    rw [List.length_append] at hlength
    omega
  rw [listed, listed, behind, List.any_map, List.any_filter, Bool.eq_iff_iff, List.any_eq_true, List.any_eq_true]
  constructor
  · rintro ⟨rule, hmem, hrest⟩
    rcases h rule hmem with happart | ⟨hhead, hlength⟩
    · rw [List.append_assoc, not_isPrefixOf_of_apart happart] at hrest
      cases hrest
    · refine ⟨rule, hmem, Bool.and_eq_true_iff.mpr ⟨List.isPrefixOf_iff_prefix.mpr hhead, ?_⟩⟩
      exact (hrule rule hhead hlength).symm.trans hrest
  · rintro ⟨rule, hmem, hboth⟩
    obtain ⟨hhead, hbehind⟩ := Bool.and_eq_true_iff.mp hboth
    rcases h rule hmem with happart | ⟨hstart, hlength⟩
    · obtain ⟨tail, rfl⟩ := List.isPrefixOf_iff_prefix.mp hhead
      have hself := not_isPrefixOf_of_apart happart tail
      rw [List.isPrefixOf_iff_prefix.mpr (List.prefix_refl _)] at hself
      cases hself
    · exact ⟨rule, hmem, (hrule rule hstart hlength).trans hbehind⟩

/-- Rules that each extend one of others list less than these. -/
theorem listed_mono {rules rules' : List Bits} (h : ∀ rule ∈ rules, ∃ rule' ∈ rules', rule' <+: rule) {x : Bits}
    (hx : listed rules x = true) : listed rules' x = true := by
  obtain ⟨rule, hmem, hstart⟩ := List.any_eq_true.mp hx
  obtain ⟨rule', hmem', hextends⟩ := h rule hmem
  exact List.any_eq_true.mpr ⟨rule', hmem', List.isPrefixOf_iff_prefix.mpr
    (hextends.trans (List.isPrefixOf_iff_prefix.mp hstart))⟩

end Lib.LeadingBits

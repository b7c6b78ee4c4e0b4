import Haive.Steps.Fences

/-!
# Texts that keep agent text fenced

`Contained` is what a reader of a text relies on: BEGIN and END banners take turns and
whatever an agent wrote is between the two of a pair. `Fenced` is the invariant that the
cuts keep: every banner is a line of its own, and outside a fence nothing is marked. A
cut of such a text is such a text, but for the state it starts or ends in
(`Fenced.front`, `Fenced.back`), which `balanceFences` makes good.
-/

namespace Haive.Steps.Fences

open Lib

/-! ## Banners -/

inductive Banner
  | opening | closing
deriving DecidableEq, Repr

def Banner.text : Banner → List UInt16
  | .opening => UNTRUSTED_OPEN
  | .closing => UNTRUSTED_CLOSE

/-- The banner that a text starts with. -/
def bannerAt (us : List UInt16) : Option Banner :=
  if UNTRUSTED_OPEN <+: us then some .opening
  else if UNTRUSTED_CLOSE <+: us then some .closing
  else none

def HasBanner (us : List UInt16) : Prop := ∃ b : Banner, b.text <:+: us

def Alternate : List Banner → Prop
  | [] => True
  | .opening :: .closing :: rest => Alternate rest
  | _ => False

/-- Index `i` is between a BEGIN banner and the next END banner. -/
def Enclosed (us : List UInt16) (i : Nat) : Prop :=
  ∃ p q, OccursAt UNTRUSTED_OPEN us p ∧ p + UNTRUSTED_OPEN.length ≤ i ∧ i < q ∧
    OccursAt UNTRUSTED_CLOSE us q ∧ ∀ k, p < k → k < q → ∀ b : Banner, ¬ OccursAt b.text us k

/-- Agent text stays inside its fence. -/
structure Contained (t : Text) : Prop where
  alternate : Alternate (starts bannerAt (units t))
  enclosed : ∀ i g, t[i]? = some g → g.agent = true → Enclosed (units t) i

theorem open_units : UNTRUSTED_OPEN = [61, 61, 61, 61, 61, 32, 66, 69, 71, 73, 78, 32, 85, 78, 84, 82, 85, 83, 84,
    69, 68, 32, 65, 71, 69, 78, 84, 32, 84, 69, 88, 84, 32, 61, 61, 61, 61, 61] := rfl

theorem close_units : UNTRUSTED_CLOSE = [61, 61, 61, 61, 61, 32, 69, 78, 68, 32, 85, 78, 84, 82, 85, 83, 84,
    69, 68, 32, 65, 71, 69, 78, 84, 32, 84, 69, 88, 84, 32, 61, 61, 61, 61, 61] := rfl

theorem Banner.no_lineEnd (b : Banner) : ∀ u ∈ b.text, u ≠ 10 ∧ u ≠ 13 ∧ u ≠ 0x2028 ∧ u ≠ 0x2029 := by
  have hall : (b.text.all fun u => u != 10 && (u != 13 && (u != 0x2028 && u != 0x2029))) = true := by
    cases b <;> rfl
  simpa only [List.all_eq_true, Bool.and_eq_true, bne_iff_ne] using hall

theorem Banner.text_ne_nil (b : Banner) : b.text ≠ [] := by
  cases b <;> exact List.cons_ne_nil _ _

/-- A unit that no banner holds. -/
def Edge (u : UInt16) : Prop := ∀ b : Banner, u ∉ b.text

theorem edge_newline : Edge newline := fun b h => (b.no_lineEnd _ h).1 rfl

/-- One banner is not inside the other. -/
theorem Banner.infix_text {b c : Banner} (h : c.text <:+: b.text) : c = b := by
  revert h
  cases b <;> cases c <;> simp only [Banner.text, open_units, close_units] <;> decide

theorem not_hasBanner_of_infix {us : List UInt16} {b : Banner} (h : us <:+: b.text)
    (hlt : us.length < b.text.length) : ¬ HasBanner us := by
  rintro ⟨c, hc⟩
  obtain rfl := Banner.infix_text (hc.trans h)
  exact absurd hc.length_le (Nat.not_le.mpr hlt)

theorem HasBanner.mono {us vs : List UInt16} (h : HasBanner us) (hsub : us <:+: vs) : HasBanner vs := by
  obtain ⟨b, hb⟩ := h
  exact ⟨b, hb.trans hsub⟩

theorem hasBanner_append_cons {a b : List UInt16} {u : UInt16} (hu : Edge u) :
    HasBanner (a ++ u :: b) ↔ HasBanner a ∨ HasBanner b := by
  constructor
  · rintro ⟨c, hc⟩
    exact ((infix_append_cons c.text_ne_nil (hu c)).mp hc).imp (⟨c, ·⟩) (⟨c, ·⟩)
  · rintro (⟨c, hc⟩ | ⟨c, hc⟩)
    · exact ⟨c, (infix_append_cons c.text_ne_nil (hu c)).mpr (.inl hc)⟩
    · exact ⟨c, (infix_append_cons c.text_ne_nil (hu c)).mpr (.inr hc)⟩

theorem not_hasBanner_nil : ¬ HasBanner [] := fun ⟨b, hb⟩ => b.text_ne_nil (List.infix_nil.mp hb)

@[simp] theorem units_nil : units [] = [] := rfl
@[simp] theorem units_cons (g : Glyph) (t : Text) : units (g :: t) = g.unit :: units t := rfl
@[simp] theorem units_append (a b : Text) : units (a ++ b) = units a ++ units b := List.map_append
@[simp] theorem units_trusted (us : List UInt16) : units (trusted us) = us := by
  rw [units, trusted, List.map_map]
  exact List.map_id us

theorem agent_of_mem_trusted {us : List UInt16} {g : Glyph} (h : g ∈ trusted us) : g.agent = false := by
  obtain ⟨u, -, rfl⟩ := List.mem_map.mp h
  rfl

theorem lit_newline : lit "\n" = [⟨newline, false⟩] := rfl

theorem joinLines_cons (l l' : Text) (ls : List Text) :
    joinLines (l :: l' :: ls) = l ++ ⟨newline, false⟩ :: joinLines (l' :: ls) := by
  rw [joinLines, lit_newline, List.append_assoc, List.singleton_append]
  exact List.cons_ne_nil _ _

/-! ## Lines -/

/-- Whether a text that starts outside a fence holds trusted text only. -/
def Clear (inside : Bool) (t : Text) : Prop := inside = false → ∀ g ∈ t, g.agent = false

def Banner.before : Banner → Bool
  | .opening => false
  | .closing => true

inductive Line : Bool → Text → Bool → Prop
  | plain {s : Bool} {l : Text} : (∀ g ∈ l, g.unit ≠ newline) → ¬ HasBanner (units l) → Clear s l → Line s l s
  | banner (b : Banner) : Line b.before (trusted b.text) (!b.before)

/-- Lines, and whether a fence is open before and after them. -/
inductive Fenced : Bool → Text → Bool → Prop
  | last {s s' : Bool} {l : Text} : Line s l s' → Fenced s l s'
  | more {s m s' : Bool} {l t : Text} {g : Glyph} : Line s l m → g.unit = newline → Clear m [g] →
      Fenced m t s' → Fenced s (l ++ g :: t) s'

theorem Clear.sub {s : Bool} {t t' : Text} (h : Clear s t) (hsub : ∀ g ∈ t', g ∈ t) : Clear s t' :=
  fun hs g hg => h hs g (hsub g hg)

theorem clear_trusted (s : Bool) (us : List UInt16) : Clear s (trusted us) := fun _ _ => agent_of_mem_trusted

theorem newline_notMem_banner (b : Banner) : ∀ g ∈ trusted b.text, g.unit ≠ newline := by
  intro g hg heq
  obtain ⟨u, hu, rfl⟩ := List.mem_map.mp hg
  exact edge_newline b (heq ▸ hu)

theorem Line.no_newline {s s' : Bool} {l : Text} (h : Line s l s') : ∀ g ∈ l, g.unit ≠ newline := by
  cases h with
  | plain hnl _ _ => exact hnl
  | banner b => exact newline_notMem_banner b

theorem Line.nil (s : Bool) : Line s [] s :=
  .plain (fun _ h => absurd h List.not_mem_nil) not_hasBanner_nil fun _ _ h => absurd h List.not_mem_nil

theorem Line.of_part {b : Banner} {x : Text} (s : Bool) (hsub : x <:+: trusted b.text)
    (hlt : x.length < b.text.length) : Line s x s := by
  refine .plain (fun g hg => newline_notMem_banner b g (hsub.mem hg)) ?_
    ((clear_trusted s b.text).sub fun g hg => hsub.mem hg)
  refine not_hasBanner_of_infix (b := b) ?_ (by rwa [units, List.length_map])
  have hunits := hsub.map (·.unit)
  rwa [show (trusted b.text).map (·.unit) = b.text from units_trusted b.text] at hunits

theorem Line.front {s s' : Bool} {x y : Text} (h : Line s (x ++ y) s') : ∃ m, Line s x m := by
  generalize hl : x ++ y = l at h
  cases h with
  | plain hnl hno hclear =>
    subst hl
    have hsub : ∀ g ∈ x, g ∈ x ++ y := fun g hg => List.mem_append_left y hg
    refine ⟨s, .plain (fun g hg => hnl g (hsub g hg)) (fun h => hno (h.mono ?_)) (hclear.sub hsub)⟩
    rw [units_append]
    exact (List.prefix_append _ _).isInfix
  | banner b =>
    cases y with
    | nil =>
      rw [List.append_nil] at hl
      subst hl
      exact ⟨_, .banner b⟩
    | cons g y =>
      have hlen := congrArg List.length hl
      rw [List.length_append, List.length_cons, trusted, List.length_map] at hlen
      exact ⟨_, .of_part _ (hl ▸ (List.prefix_append x (g :: y)).isInfix) (by omega)⟩

theorem Line.back {s s' : Bool} {x y : Text} (h : Line s (x ++ y) s') : ∃ m, Line m y s' := by
  generalize hl : x ++ y = l at h
  cases h with
  | plain hnl hno hclear =>
    subst hl
    have hsub : ∀ g ∈ y, g ∈ x ++ y := fun g hg => List.mem_append_right x hg
    refine ⟨s, .plain (fun g hg => hnl g (hsub g hg)) (fun h => hno (h.mono ?_)) (hclear.sub hsub)⟩
    rw [units_append]
    exact (List.suffix_append _ _).isInfix
  | banner b =>
    cases x with
    | nil =>
      rw [List.nil_append] at hl
      subst hl
      exact ⟨_, .banner b⟩
    | cons g x =>
      have hlen := congrArg List.length hl
      rw [List.length_append, List.length_cons, trusted, List.length_map] at hlen
      exact ⟨_, .of_part _ (hl ▸ (List.suffix_append (g :: x) y).isInfix) (by omega)⟩

/-! ## Cuts and joins -/

section Cuts

variable {s m s' : Bool} {t x y : Text} {g : Glyph}

theorem Fenced.front (h : Fenced s (x ++ y) s') : ∃ m, Fenced s x m := by
  generalize ht : x ++ y = t at h
  induction h generalizing x with
  | last hl =>
    obtain ⟨m, hm⟩ := (ht ▸ hl).front
    exact ⟨m, .last hm⟩
  | more hl hg hclear hrest ih =>
    rcases List.append_eq_append_iff.mp ht with ⟨c, rfl, rfl⟩ | ⟨a, rfl, hrest⟩
    · obtain ⟨m, hm⟩ := hl.front
      exact ⟨m, .last hm⟩
    · cases a with
      | nil => exact ⟨_, .last (by rwa [List.append_nil])⟩
      | cons g' a =>
        rw [List.cons_append, List.cons.injEq] at hrest
        obtain ⟨rfl, hrest⟩ := hrest
        obtain ⟨m, hm⟩ := ih hrest.symm
        exact ⟨m, .more hl hg hclear hm⟩

theorem Fenced.back (h : Fenced s (x ++ y) s') : ∃ m, Fenced m y s' := by
  generalize ht : x ++ y = t at h
  induction h generalizing x with
  | last hl =>
    obtain ⟨m, hm⟩ := (ht ▸ hl).back
    exact ⟨m, .last hm⟩
  | more hl hg hclear hrest ih =>
    rcases List.append_eq_append_iff.mp ht with ⟨c, rfl, rfl⟩ | ⟨a, rfl, hsplit⟩
    · obtain ⟨m, hm⟩ := hl.back
      exact ⟨m, .more hm hg hclear hrest⟩
    · cases a with
      | nil =>
        rw [List.nil_append] at hsplit
        subst hsplit
        exact ⟨_, .more (.nil _) hg hclear hrest⟩
      | cons g' a =>
        rw [List.cons_append, List.cons.injEq] at hsplit
        exact ih hsplit.2.symm

theorem Fenced.join {t' : Text} (h : Fenced s t m) (hg : g.unit = newline) (hclear : Clear m [g])
    (h' : Fenced m t' s') : Fenced s (t ++ g :: t') s' := by
  induction h with
  | last hl => exact .more hl hg hclear h'
  | more hl hg' hclear' _ ih =>
    rw [List.append_assoc, List.cons_append]
    exact .more hl hg' hclear' (ih hclear h')

theorem lines_induction {P : Text → Prop} (last : ∀ l : Text, (∀ g ∈ l, g.unit ≠ newline) → P l)
    (more : ∀ (l : Text) (g : Glyph) (t : Text), (∀ g ∈ l, g.unit ≠ newline) → g.unit = newline → P t →
      P (l ++ g :: t)) (t : Text) : P t := by
  have hfront : ∀ g ∈ t.takeWhile (·.unit ≠ newline), g.unit ≠ newline := by
    intro g hg
    simpa using List.mem_takeWhile_imp hg
  cases hrest : t.dropWhile (·.unit ≠ newline) with
  | nil =>
    have hall := List.takeWhile_append_dropWhile (p := (·.unit ≠ newline)) (l := t)
    rw [hrest, List.append_nil] at hall
    exact last t (hall ▸ hfront)
  | cons g rest =>
    have hg : g.unit = newline := by
      have hhead := List.head?_dropWhile_not (·.unit ≠ newline) t
      rw [hrest] at hhead
      simpa using hhead
    have hall := List.takeWhile_append_dropWhile (p := (·.unit ≠ newline)) (l := t)
    rw [hrest] at hall
    have hless : rest.length < t.length := by
      rw [← hall, List.length_append, List.length_cons]
      omega
    exact hall ▸ more _ g rest hfront hg (lines_induction last more rest)
termination_by t.length

/-- Text without a banner, in or out of a fence. -/
theorem Fenced.plain (hno : ¬ HasBanner (units t)) (hclear : Clear s t) : Fenced s t s := by
  induction t using lines_induction with
  | last l hl => exact .last (.plain hl hno hclear)
  | more l g t hl hg ih =>
    rw [units_append, units_cons, hg, hasBanner_append_cons edge_newline, not_or] at hno
    refine .more (.plain hl hno.1 (hclear.sub fun _ h => List.mem_append_left _ h)) hg
      (hclear.sub fun _ h => ?_) (ih hno.2 (hclear.sub fun _ h => ?_))
    · exact List.mem_append_right _ (List.mem_singleton.mp h ▸ List.mem_cons_self)
    · exact List.mem_append_right _ (List.mem_cons_of_mem _ h)

end Cuts

/-! ## Splitting and joining -/

inductive Lines : Bool → List Text → Bool → Prop
  | nil (s : Bool) : Lines s [] s
  | cons {s m s' : Bool} {l : Text} {ls : List Text} : Line s l m → Lines m ls s' → Lines s (l :: ls) s'

theorem splitLines_last {l : Text} (h : ∀ g ∈ l, g.unit ≠ newline) : splitLines l = [l] :=
  List.splitOnP_eq_singleton fun g hg => decide_eq_false (h g hg)

theorem splitLines_more {l t : Text} {g : Glyph} (h : ∀ g ∈ l, g.unit ≠ newline) (hg : g.unit = newline) :
    splitLines (l ++ g :: t) = l :: splitLines t :=
  List.splitOnP_append_cons_of_forall_mem (fun g hg => decide_eq_false (h g hg)) g (decide_eq_true hg) t

theorem Fenced.lines {s s' : Bool} {t : Text} (h : Fenced s t s') : Lines s (splitLines t) s' := by
  induction h with
  | last hl =>
    rw [splitLines_last hl.no_newline]
    exact .cons hl (.nil _)
  | more hl hg _ _ ih =>
    rw [splitLines_more hl.no_newline hg]
    exact .cons hl ih

theorem Lines.joined {s s' : Bool} {ls : List Text} (h : Lines s ls s') : Fenced s (joinLines ls) s' := by
  induction h with
  | nil s => exact .last (.nil s)
  | @cons s m s' l ls hl hrest ih =>
    cases ls with
    | nil =>
      cases hrest
      exact .last hl
    | cons l' ls =>
      rw [joinLines_cons]
      exact .more hl rfl (clear_trusted m [newline]) ih

theorem Lines.split {s s' : Bool} {xs ys : List Text} (h : Lines s (xs ++ ys) s') :
    ∃ m, Lines s xs m ∧ Lines m ys s' := by
  induction xs generalizing s with
  | nil => exact ⟨s, .nil s, h⟩
  | cons x xs ih =>
    cases h with
    | cons hl hrest =>
      obtain ⟨m, hxs, hys⟩ := ih hrest
      exact ⟨m, .cons hl hxs, hys⟩

/-! ## Balancing -/

/-- The banners of fenced text make up for the state it starts and ends in. -/
theorem Fenced.count {s s' : Bool} {t : Text} (h : Fenced s t s') :
    occurrences UNTRUSTED_OPEN (units t) + s.toNat = occurrences UNTRUSTED_CLOSE (units t) + s'.toNat := by
  have line : ∀ {s s' : Bool} {l : Text}, Line s l s' →
      occurrences UNTRUSTED_OPEN (units l) + s.toNat = occurrences UNTRUSTED_CLOSE (units l) + s'.toNat := by
    intro s s' l h
    cases h with
    | plain _ hno _ =>
      have hopen : ¬ UNTRUSTED_OPEN <:+: units l := fun h => hno ⟨.opening, h⟩
      have hclose : ¬ UNTRUSTED_CLOSE <:+: units l := fun h => hno ⟨.closing, h⟩
      rw [occurrences, occurrences, countFrom_eq_zero hopen, countFrom_eq_zero hclose]
    | banner b =>
      rw [units_trusted]
      cases b <;> rfl
  induction h with
  | last hl => exact line hl
  | @more s m s' l t g hl hg _ _ ih =>
    have hfirst := line hl
    have hopen : occurrences UNTRUSTED_OPEN (units l ++ newline :: units t) =
        occurrences UNTRUSTED_OPEN (units l) + occurrences UNTRUSTED_OPEN (units t) :=
      occurrences_append_cons Banner.opening.text_ne_nil (edge_newline .opening) _
    have hclose : occurrences UNTRUSTED_CLOSE (units l ++ newline :: units t) =
        occurrences UNTRUSTED_CLOSE (units l) + occurrences UNTRUSTED_CLOSE (units t) :=
      occurrences_append_cons Banner.closing.text_ne_nil (edge_newline .closing) _
    rw [units_append, units_cons, hg, hopen, hclose]
    omega

/-- A front is closed. -/
theorem Fenced.balance_front {m : Bool} {t : Text} (h : Fenced false t m) :
    Fenced false (balanceFences t) false := by
  have hcount := h.count
  rw [Bool.toNat_false, Nat.add_zero] at hcount
  rw [balanceFences]
  cases m with
  | false =>
    rw [if_pos (by simpa using hcount)]
    exact h
  | true =>
    rw [Bool.toNat_true] at hcount
    rw [if_neg (by omega), if_neg (by omega), lit_newline, List.append_assoc, List.singleton_append]
    exact h.join rfl (clear_trusted true [newline]) (.last (.banner .closing))

/-- A back is opened. -/
theorem Fenced.balance_back {m : Bool} {t : Text} (h : Fenced m t false) :
    Fenced false (balanceFences t) false := by
  have hcount := h.count
  rw [Bool.toNat_false, Nat.add_zero] at hcount
  rw [balanceFences]
  cases m with
  | false =>
    rw [if_pos (by simpa using hcount)]
    exact h
  | true =>
    rw [Bool.toNat_true] at hcount
    rw [if_neg (by omega), if_pos (by omega), lit_newline, List.append_assoc, List.singleton_append]
    exact .more (.banner .opening) rfl (clear_trusted true [newline]) h

/-! ## Chains of fences -/

/-- Text that no banner starts in, whatever comes after it. -/
structure Quiet (x : Text) : Prop where
  plain : ¬ HasBanner (units x)
  edge : x = [] ∨ ∃ y g, x = y ++ [g] ∧ Edge g.unit

/-- Text that does not go on with a banner. -/
def EdgeFirst (z : Text) : Prop := z = [] ∨ ∃ g y, z = g :: y ∧ Edge g.unit

/-- Trusted text and fences in turn. A fence may be cut down to less than whole lines. -/
inductive Chain : Text → Prop
  | plain {x : Text} : ¬ HasBanner (units x) → Clear false x → Chain x
  | block {x v z : Text} : Quiet x → Clear false x → Quiet v → v ≠ [] → EdgeFirst v → EdgeFirst z → Chain z →
      Chain (x ++ (trusted UNTRUSTED_OPEN ++ (v ++ (trusted UNTRUSTED_CLOSE ++ z))))

/-- A chain, or the rest of one whose fence is open. -/
def Chained : Bool → Text → Prop
  | false, t => Chain t
  | true, t => ∃ v z, t = v ++ (trusted UNTRUSTED_CLOSE ++ z) ∧ Quiet v ∧ EdgeFirst z ∧ Chain z

theorem EdgeFirst.append {x y : Text} (hx : EdgeFirst x) (hne : x ≠ []) : EdgeFirst (x ++ y) := by
  obtain ⟨g, x', rfl, hg⟩ := hx.resolve_left hne
  exact .inr ⟨g, x' ++ y, rfl, hg⟩

theorem edge_of_newline {g : Glyph} (hg : g.unit = newline) : Edge g.unit := hg ▸ edge_newline

theorem Quiet.line {l x : Text} {g : Glyph} (hl : ¬ HasBanner (units l)) (hg : g.unit = newline)
    (hx : Quiet x) : Quiet (l ++ g :: x) := by
  refine ⟨?_, .inr ?_⟩
  · rw [units_append, units_cons, hg, hasBanner_append_cons edge_newline, not_or]
    exact ⟨hl, hx.plain⟩
  · rcases hx.edge with rfl | ⟨y, g', rfl, hg'⟩
    · exact ⟨l, g, rfl, edge_of_newline hg⟩
    · exact ⟨l ++ g :: y, g', by rw [List.append_assoc, List.cons_append], hg'⟩

theorem clear_line {s : Bool} {l x : Text} {g : Glyph} (hl : Clear s l) (hg : Clear s [g]) (hx : Clear s x) :
    Clear s (l ++ g :: x) := by
  intro hs g' hg'
  rcases List.mem_append.mp hg' with h | h
  · exact hl hs g' h
  · rcases List.mem_cons.mp h with rfl | h
    · exact hg hs g' List.mem_cons_self
    · exact hx hs g' h

theorem Chain.line {l t : Text} {g : Glyph} (hl : ¬ HasBanner (units l)) (hcl : Clear false l)
    (hg : g.unit = newline) (hclear : Clear false [g]) (h : Chain t) : Chain (l ++ g :: t) := by
  cases h with
  | plain hno hcl' =>
    refine .plain ?_ (clear_line hcl hclear hcl')
    rw [units_append, units_cons, hg, hasBanner_append_cons edge_newline, not_or]
    exact ⟨hl, hno⟩
  | block hx hcl' hv hne hfirst hz hchain =>
    rw [← List.cons_append, ← List.append_assoc]
    exact .block (.line hl hg hx) (clear_line hcl hclear hcl') hv hne hfirst hz hchain

theorem clear_nil (s : Bool) : Clear s [] := fun _ _ h => absurd h List.not_mem_nil

theorem quiet_nil : Quiet [] := ⟨not_hasBanner_nil, .inl rfl⟩

theorem Fenced.chained {s s' : Bool} {t : Text} (h : Fenced s t s') (hs' : s' = false) : Chained s t := by
  induction h with
  | last hl =>
    cases hl with
    | plain _ hno hclear =>
      subst hs'
      exact .plain hno hclear
    | banner b =>
      cases b with
      | opening => cases hs'
      | closing =>
        exact ⟨[], [], by simp [Banner.text], quiet_nil, .inl rfl, .plain not_hasBanner_nil (clear_nil false)⟩
  | @more s m s' l t g hl hg hclear _ ih =>
    have hrest := ih hs'
    cases hl with
    | plain _ hno hcl =>
      cases s with
      | false => exact .line hno hcl hg hclear hrest
      | true =>
        obtain ⟨v, z, rfl, hv, hz, hchain⟩ := hrest
        refine ⟨l ++ g :: v, z, ?_, .line hno hg hv, hz, hchain⟩
        rw [List.append_assoc, List.cons_append]
    | banner b =>
      cases b with
      | opening =>
        obtain ⟨v, z, rfl, hv, hz, hchain⟩ := hrest
        have hinner : Quiet ([] ++ g :: v) := .line not_hasBanner_nil hg hv
        exact .block (x := []) quiet_nil (clear_nil false) hinner (List.cons_ne_nil g v)
          (.inr ⟨g, v, rfl, edge_of_newline hg⟩) hz hchain
      | closing =>
        exact ⟨[], g :: t, rfl, quiet_nil, .inr ⟨g, t, rfl, edge_of_newline hg⟩,
          .line (l := []) not_hasBanner_nil (clear_nil false) hg hclear hrest⟩

theorem Fenced.chain {t : Text} (h : Fenced false t false) : Chain t := h.chained rfl

/-! ## What a search of a chain finds -/

section Search

variable {x z : Text} {us : List UInt16} {b c : Banner}

theorem bannerAt_append_cons {u : UInt16} (hu : Edge u) (a b : List UInt16) :
    bannerAt (a ++ u :: b) = bannerAt a := by
  have hopen : UNTRUSTED_OPEN <+: a ++ u :: b ↔ UNTRUSTED_OPEN <+: a := prefix_append_cons (hu .opening)
  have hclose : UNTRUSTED_CLOSE <+: a ++ u :: b ↔ UNTRUSTED_CLOSE <+: a := prefix_append_cons (hu .closing)
  simp only [bannerAt, hopen, hclose]

theorem starts_edge {u : UInt16} (hu : Edge u) (a b : List UInt16) :
    starts bannerAt (a ++ u :: b) = starts bannerAt a ++ starts bannerAt b :=
  starts_append_cons rfl (bannerAt_append_cons hu) a b

theorem starts_eq_nil_of_plain (h : ¬ HasBanner us) : starts bannerAt us = [] := by
  refine starts_eq_nil fun s hs => ?_
  have hno : ∀ b : Banner, ¬ b.text <+: s := fun b hb => h ⟨b, hb.isInfix.trans hs.isInfix⟩
  exact (if_neg (hno .opening)).trans (if_neg (hno .closing))

/-- Quiet text in front changes nothing that a search finds. -/
theorem Quiet.units_split (h : Quiet x) (hne : x ≠ []) :
    ∃ y u, units x = y ++ [u] ∧ Edge u ∧ ¬ HasBanner y ∧ x.length = y.length + 1 := by
  obtain ⟨y, g, rfl, hg⟩ := h.edge.resolve_left hne
  refine ⟨units y, g.unit, by simp, hg, fun hy => h.plain (hy.mono ?_), by simp [units]⟩
  rw [units_append]
  exact (List.prefix_append _ _).isInfix

theorem Quiet.starts_append (h : Quiet x) (w : List UInt16) :
    starts bannerAt (units x ++ w) = starts bannerAt w := by
  rcases eq_or_ne x [] with rfl | hne
  · rfl
  · obtain ⟨y, u, hy, hu, hno, -⟩ := h.units_split hne
    rw [hy, List.append_assoc, List.singleton_append, starts_edge hu, starts_eq_nil_of_plain hno,
      List.nil_append]

theorem Quiet.occursAt_append (h : Quiet x) (w : List UInt16) {k : Nat} :
    OccursAt b.text (units x ++ w) k ↔ ∃ j, k = x.length + j ∧ OccursAt b.text w j := by
  rcases eq_or_ne x [] with rfl | hne
  · simp
  · obtain ⟨y, u, hy, hu, hno, hlen⟩ := h.units_split hne
    rw [hy, List.append_assoc, List.singleton_append, occursAt_append_cons b.text_ne_nil (hu b), hlen]
    exact or_iff_right (not_occursAt (fun hb => hno ⟨b, hb⟩) k)

theorem Quiet.occurrences_append (h : Quiet x) (w : List UInt16) :
    occurrences b.text (units x ++ w) = occurrences b.text w := by
  rcases eq_or_ne x [] with rfl | hne
  · rfl
  · obtain ⟨y, u, hy, hu, hno, -⟩ := h.units_split hne
    have hzero : occurrences b.text y = 0 := countFrom_eq_zero (fun hb => hno ⟨b, hb⟩) 0
    rw [hy, List.append_assoc, List.singleton_append, occurrences_append_cons b.text_ne_nil (hu b), hzero,
      Nat.zero_add]

theorem Quiet.indexOf_append (h : Quiet x) (w : List UInt16) :
    indexOf b.text (units x ++ w) = (indexOf b.text w).map (· + x.length) := by
  rcases eq_or_ne x [] with rfl | hne
  · simp
  · obtain ⟨y, u, hy, hu, hno, hlen⟩ := h.units_split hne
    rw [hy, List.append_assoc, List.singleton_append,
      indexOf_append_cons b.text_ne_nil (hu b) fun hb => hno ⟨b, hb⟩, hlen]

theorem starts_banner (hz : EdgeFirst z) :
    starts bannerAt (c.text ++ units z) = c :: starts bannerAt (units z) := by
  have hself : starts bannerAt c.text = [c] := by cases c <;> rfl
  rcases hz with rfl | ⟨g, y, rfl, hg⟩
  · rw [units_nil, List.append_nil, hself]
    rfl
  · rw [units_cons, starts_edge hg, hself, ← List.nil_append (g.unit :: units y), starts_edge hg]
    rfl

theorem occursAt_text {k : Nat} : OccursAt b.text c.text k ↔ k = 0 ∧ b = c := by
  constructor
  · intro h
    obtain rfl := Banner.infix_text (h.isInfix.trans (List.drop_suffix k c.text).isInfix)
    exact ⟨by have hle := h.le b.text_ne_nil; omega, rfl⟩
  · rintro ⟨rfl, rfl⟩
    exact List.prefix_refl _

theorem occursAt_banner (hz : EdgeFirst z) {k : Nat} :
    OccursAt b.text (c.text ++ units z) k ↔
      (k = 0 ∧ b = c) ∨ ∃ j, k = c.text.length + j ∧ OccursAt b.text (units z) j := by
  have hnone : ∀ j, ¬ OccursAt b.text [] j := not_occursAt fun h => b.text_ne_nil (List.infix_nil.mp h)
  rcases hz with rfl | ⟨g, y, rfl, hg⟩
  · rw [units_nil, List.append_nil, occursAt_text]
    exact ⟨.inl, fun h => h.resolve_right fun ⟨j, _, hj⟩ => hnone j hj⟩
  · have hfirst : ∀ {j}, OccursAt b.text (g.unit :: units y) j ↔
        OccursAt b.text [] j ∨ ∃ i, j = 0 + 1 + i ∧ OccursAt b.text (units y) i :=
      occursAt_append_cons (a := []) b.text_ne_nil (hg b)
    rw [units_cons, occursAt_append_cons b.text_ne_nil (hg b), occursAt_text]
    refine or_congr_right ⟨?_, ?_⟩
    · rintro ⟨j, rfl, hj⟩
      exact ⟨1 + j, by omega, hfirst.mpr (.inr ⟨j, by omega, hj⟩)⟩
    · rintro ⟨j, rfl, hj⟩
      obtain ⟨i, rfl, hi⟩ := (hfirst.mp hj).resolve_left (hnone j)
      exact ⟨i, by omega, hi⟩

theorem occurrences_banner (hz : EdgeFirst z) :
    occurrences b.text (c.text ++ units z) = (if b = c then 1 else 0) + occurrences b.text (units z) := by
  have hself : occurrences b.text c.text = if b = c then 1 else 0 := by
    cases b <;> cases c <;> rfl
  rcases hz with rfl | ⟨g, y, rfl, hg⟩
  · rw [units_nil, List.append_nil, hself]
    rfl
  · have hfirst : occurrences b.text (g.unit :: units y) = 0 + occurrences b.text (units y) :=
      occurrences_append_cons (a := []) b.text_ne_nil (hg b)
    rw [units_cons, occurrences_append_cons b.text_ne_nil (hg b), hself, hfirst, Nat.zero_add]

end Search

namespace Chain

variable {t : Text}

/-- In a chain every agent's text is inside its fence. -/
theorem contained (h : Chain t) : Contained t := by
  induction h with
  | @plain x hno hclear =>
    refine ⟨?_, fun i g hg hagent => ?_⟩
    · rw [starts_eq_nil_of_plain hno]
      trivial
    · rw [hclear rfl g (List.mem_of_getElem? hg)] at hagent
      cases hagent
  | @block x v z hx hclear hv hne hfirst hz _ ih =>
    have hinner : EdgeFirst (v ++ (trusted UNTRUSTED_CLOSE ++ z)) := hfirst.append hne
    have hunits : units (x ++ (trusted UNTRUSTED_OPEN ++ (v ++ (trusted UNTRUSTED_CLOSE ++ z)))) =
        units x ++ (Banner.opening.text ++ units (v ++ (trusted UNTRUSTED_CLOSE ++ z))) := by
      rw [units_append, units_append, units_trusted]
      rfl
    have hrest : units (v ++ (trusted UNTRUSTED_CLOSE ++ z)) = units v ++ (Banner.closing.text ++ units z) := by
      rw [units_append, units_append, units_trusted]
      rfl
    have hoccurs : ∀ (b : Banner) (k : Nat), OccursAt b.text (units (x ++ (trusted UNTRUSTED_OPEN ++
        (v ++ (trusted UNTRUSTED_CLOSE ++ z))))) k ↔
        (k = x.length ∧ b = .opening) ∨ (k = x.length + 38 + v.length ∧ b = .closing) ∨
          ∃ j, k = x.length + 38 + v.length + 36 + j ∧ OccursAt b.text (units z) j := by
      intro b k
      have hopen : Banner.opening.text.length = 38 := rfl
      have hclose : Banner.closing.text.length = 36 := rfl
      rw [hunits, hx.occursAt_append]
      constructor
      · rintro ⟨j, rfl, hj⟩
        rcases (occursAt_banner hinner).mp hj with ⟨rfl, hb⟩ | ⟨i, rfl, hi⟩
        · exact .inl ⟨rfl, hb⟩
        · rw [hrest, hv.occursAt_append] at hi
          obtain ⟨i', rfl, hi'⟩ := hi
          rcases (occursAt_banner hz).mp hi' with ⟨rfl, hb⟩ | ⟨n, rfl, hn⟩
          · exact .inr (.inl ⟨by omega, hb⟩)
          · exact .inr (.inr ⟨n, by omega, hn⟩)
      · rintro (⟨rfl, hb⟩ | ⟨rfl, hb⟩ | ⟨j, rfl, hj⟩)
        · exact ⟨0, rfl, (occursAt_banner hinner).mpr (.inl ⟨rfl, hb⟩)⟩
        · refine ⟨38 + v.length, by omega, (occursAt_banner hinner).mpr (.inr ⟨v.length, by omega, ?_⟩)⟩
          rw [hrest, hv.occursAt_append]
          exact ⟨0, rfl, (occursAt_banner hz).mpr (.inl ⟨rfl, hb⟩)⟩
        · refine ⟨38 + (v.length + (36 + j)), by omega,
            (occursAt_banner hinner).mpr (.inr ⟨v.length + (36 + j), by omega, ?_⟩)⟩
          rw [hrest, hv.occursAt_append]
          exact ⟨36 + j, rfl, (occursAt_banner hz).mpr (.inr ⟨j, by omega, hj⟩)⟩
    refine ⟨?_, fun i g hg hagent => ?_⟩
    · rw [hunits, hx.starts_append, starts_banner hinner, hrest, hv.starts_append, starts_banner hz]
      exact ih.alternate
    · have hlen : ∀ us : List UInt16, (trusted us).length = us.length := fun us => List.length_map _
      have hopen : (trusted UNTRUSTED_OPEN).length = 38 := (hlen _).trans rfl
      have hclose : (trusted UNTRUSTED_CLOSE).length = 36 := (hlen _).trans rfl
      have hopenText : UNTRUSTED_OPEN.length = 38 := rfl
      rcases Nat.lt_or_ge i x.length with hi | hi
      · rw [List.getElem?_append_left hi] at hg
        rw [hclear rfl g (List.mem_of_getElem? hg)] at hagent
        cases hagent
      rw [List.getElem?_append_right hi] at hg
      rcases Nat.lt_or_ge (i - x.length) 38 with hi' | hi'
      · rw [List.getElem?_append_left (by omega)] at hg
        rw [agent_of_mem_trusted (List.mem_of_getElem? hg)] at hagent
        cases hagent
      rw [List.getElem?_append_right (by omega)] at hg
      rcases Nat.lt_or_ge (i - x.length - 38) v.length with hi'' | hi''
      · -- Inside the fence.
        refine ⟨x.length, x.length + 38 + v.length, (hoccurs .opening _).mpr (.inl ⟨rfl, rfl⟩), by omega,
          by omega, (hoccurs .closing _).mpr (.inr (.inl ⟨rfl, rfl⟩)), fun k hk hk' b hb => ?_⟩
        rcases (hoccurs b k).mp hb with ⟨rfl, -⟩ | ⟨rfl, -⟩ | ⟨j, rfl, -⟩ <;> omega
      rw [List.getElem?_append_right (by omega)] at hg
      rcases Nat.lt_or_ge (i - x.length - 38 - v.length) 36 with hi₃ | hi₃
      · rw [List.getElem?_append_left (by omega)] at hg
        rw [agent_of_mem_trusted (List.mem_of_getElem? hg)] at hagent
        cases hagent
      rw [List.getElem?_append_right (by omega), hopen, hclose] at hg
      obtain ⟨p, q, hp, hpi, hiq, hq, hbetween⟩ := ih.enclosed _ g hg hagent
      refine ⟨x.length + 38 + v.length + 36 + p, x.length + 38 + v.length + 36 + q,
        (hoccurs .opening _).mpr (.inr (.inr ⟨p, rfl, hp⟩)), by omega, by omega,
        (hoccurs .closing _).mpr (.inr (.inr ⟨q, rfl, hq⟩)), fun k hk hk' b hb => ?_⟩
      rcases (hoccurs b k).mp hb with ⟨rfl, -⟩ | ⟨rfl, -⟩ | ⟨j, rfl, hj⟩
      · omega
      · omega
      · exact hbetween j (by omega) (by omega) b hj

/-- A chain needs no repair. -/
theorem balance (h : Chain t) : balanceFences t = t := by
  have hcount : occurrences Banner.opening.text (units t) = occurrences Banner.closing.text (units t) := by
    induction h with
    | plain hno _ =>
      exact (countFrom_eq_zero (fun h => hno ⟨.opening, h⟩) 0).trans
        (countFrom_eq_zero (fun h => hno ⟨.closing, h⟩) 0).symm
    | @block x v z hx _ hv hne hfirst hz _ ih =>
      have each : ∀ b : Banner, occurrences b.text (units (x ++ (trusted UNTRUSTED_OPEN ++
          (v ++ (trusted UNTRUSTED_CLOSE ++ z))))) =
          (if b = .opening then 1 else 0) + ((if b = .closing then 1 else 0) + occurrences b.text (units z)) := by
        intro b
        have hinner : EdgeFirst (v ++ (trusted UNTRUSTED_CLOSE ++ z)) := hfirst.append hne
        have hopen : occurrences b.text (UNTRUSTED_OPEN ++ _) = _ := occurrences_banner (c := .opening) hinner
        have hclose : occurrences b.text (UNTRUSTED_CLOSE ++ _) = _ := occurrences_banner (c := .closing) hz
        rw [units_append, units_append, units_trusted, hx.occurrences_append, hopen, units_append, units_append,
          units_trusted, hv.occurrences_append, hclose]
      rw [each .opening, each .closing, ih]
      simp
  exact if_pos hcount

end Chain

end Haive.Steps.Fences

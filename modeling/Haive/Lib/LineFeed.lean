import Mathlib.Data.List.DropRight

/-!
# Lines out of chunks

A reader that is fed a text in chunks and hands each line to a handler: a line is handed when its
end arrives, without the white space around it and not at all when it is blank. `flush` hands what
is unfinished without waiting for its end. `exec_complete_iff` says when the chunks and the flushes
come to every line of the text handed once, in order, whatever the handler does with them.
-/

namespace Lib

variable {α σ : Type}

/-- What a reader works with: how lines end, what is cut off around them and what is done with one,
`true` when that throws. -/
structure LineHandler (α σ : Type) where
  sep : α
  white : α → Bool
  step : List α → σ → σ × Bool

/-- What has come and is not handed yet, and the state of the handler. No operation reads `handed`,
the lines it was given so far. -/
structure LineFeed (α σ : Type) where
  buffer : List α
  state : σ
  handed : List (List α)

/-- What is done to a reader. A `peek` reads the state and leaves it. -/
inductive FeedOp (α : Type)
  | chunk (text : List α)
  | flush
  | peek

def FeedOp.fed : List (FeedOp α) → List α
  | [] => []
  | .chunk text :: ops => text ++ fed ops
  | .flush :: ops | .peek :: ops => fed ops

namespace LineHandler

variable (h : LineHandler α σ)

def strip (line : List α) : List α := (line.dropWhile h.white).rdropWhile h.white

def Blank (line : List α) : Prop := ∀ a ∈ line, h.white a = true

instance (line : List α) : Decidable (h.Blank line) := inferInstanceAs (Decidable (∀ a ∈ line, _))

def hand (line : List α) (state : σ) (handed : List (List α)) : σ × List (List α) × Bool :=
  if h.strip line = [] then (state, handed, false)
  else ((h.step (h.strip line) state).1, handed ++ [h.strip line], (h.step (h.strip line) state).2)

def toHand (lines : List (List α)) : List (List α) := (lines.map h.strip).filter (· ≠ [])

def fold (handed : List (List α)) (state : σ) : σ := handed.foldl (fun s line => (h.step line s).1) state

/-! ## Blank lines -/

theorem strip_eq_nil_iff {line : List α} : h.strip line = [] ↔ h.Blank line := by
  rw [strip, List.rdropWhile_eq_nil_iff]
  constructor
  · intro hall a ha
    by_contra hwhite
    have hdrop : line.dropWhile h.white ≠ [] := fun hnil =>
      hwhite (List.dropWhile_eq_nil_iff.mp hnil a ha)
    have hhead := List.head_dropWhile_not h.white hdrop
    rw [hall _ (List.head_mem hdrop)] at hhead
    cases hhead
  · intro hblank a ha
    exact hblank a ((List.dropWhile_suffix h.white).subset ha)

theorem blank_append {a b : List α} : h.Blank (a ++ b) ↔ h.Blank a ∧ h.Blank b := List.forall_mem_append

theorem strip_append_of_blank_left {a b : List α} (ha : h.Blank a) : h.strip (a ++ b) = h.strip b := by
  rw [strip, List.dropWhile_append_of_pos ha, strip]

theorem dropWhile_append_of_not_blank {a b : List α} (ha : ¬ h.Blank a) :
    (a ++ b).dropWhile h.white = a.dropWhile h.white ++ b := by
  rw [List.dropWhile_append, if_neg]
  rw [List.isEmpty_iff, List.dropWhile_eq_nil_iff]
  exact ha

theorem strip_append_of_blank_right {a b : List α} (hb : h.Blank b) : h.strip (a ++ b) = h.strip a := by
  by_cases ha : h.Blank a
  · rw [h.strip_eq_nil_iff.mpr ha, h.strip_eq_nil_iff, blank_append]
    exact ⟨ha, hb⟩
  · rw [strip, h.dropWhile_append_of_not_blank ha, List.rdropWhile, List.reverse_append,
      List.dropWhile_append_of_pos fun x hx => hb x (List.mem_reverse.mp hx)]
    rfl

/-- Something more at the end of a line shows. -/
theorem strip_append_ne {a b : List α} (ha : ¬ h.Blank a) (hb : ¬ h.Blank b) :
    h.strip (a ++ b) ≠ h.strip a := by
  have hkept : b.reverse.dropWhile h.white ≠ [] := fun hnil =>
    hb fun x hx => List.dropWhile_eq_nil_iff.mp hnil x (List.mem_reverse.mpr hx)
  have hlong : (h.strip (a ++ b)).length =
      (b.reverse.dropWhile h.white).length + (a.dropWhile h.white).length := by
    rw [strip, h.dropWhile_append_of_not_blank ha, List.rdropWhile, List.reverse_append,
      List.dropWhile_append, if_neg (by rwa [List.isEmpty_iff]), List.length_reverse, List.length_append,
      List.length_reverse]
  have hshort : (h.strip a).length ≤ (a.dropWhile h.white).length :=
    (List.rdropWhile_prefix h.white _).length_le
  have hpos := List.length_pos_of_ne_nil hkept
  intro heq
  rw [heq] at hlong
  omega

/-! ## Handing -/

theorem toHand_append (a b : List (List α)) : h.toHand (a ++ b) = h.toHand a ++ h.toHand b := by
  rw [toHand, List.map_append, List.filter_append]
  rfl

theorem toHand_cons (line : List α) (rest : List (List α)) :
    h.toHand (line :: rest) = h.toHand [line] ++ h.toHand rest := h.toHand_append [line] rest

theorem toHand_blank {line : List α} (hline : h.Blank line) : h.toHand [line] = [] := by
  rw [toHand, List.map_singleton, h.strip_eq_nil_iff.mpr hline]
  rfl

theorem toHand_not_blank {line : List α} (hline : ¬ h.Blank line) : h.toHand [line] = [h.strip line] := by
  rw [toHand, List.map_singleton, List.filter_cons_of_pos]
  · rfl
  · simpa [h.strip_eq_nil_iff] using hline

theorem toHand_parts {a b : List α} (hblank : h.Blank a ∨ h.Blank b) :
    h.toHand [a] ++ h.toHand [b] = h.toHand [a ++ b] := by
  rcases hblank with ha | hb
  · rw [h.toHand_blank ha, List.nil_append, toHand, toHand, List.map_singleton, List.map_singleton,
      h.strip_append_of_blank_left ha]
  · rw [h.toHand_blank hb, List.append_nil, toHand, toHand, List.map_singleton, List.map_singleton,
      h.strip_append_of_blank_right hb]

/-- A line that was handed at a blank of it goes on with nothing to hand. -/
theorem toHand_front {front cfront : List (List α)} {read l : List α} (hparts : h.Blank read ∨ h.Blank l) :
    h.toHand (front ++ [read]) ++ h.toHand (l :: cfront) = h.toHand (front ++ (read ++ l) :: cfront ++ [[]]) := by
  have hnil : h.toHand [[]] = [] := h.toHand_blank nofun
  rw [toHand_append, toHand_append, toHand_append, hnil, h.toHand_cons l, h.toHand_cons (read ++ l), ← h.toHand_parts hparts]
  simp only [List.append_assoc, List.append_nil]

theorem hand_handed (line : List α) (state : σ) (handed : List (List α)) :
    (h.hand line state handed).2.1 = handed ++ h.toHand [line] := by
  rw [hand]
  split
  next hnil => rw [h.toHand_blank (h.strip_eq_nil_iff.mp hnil), List.append_nil]
  next hne => rw [h.toHand_not_blank fun hblank => hne (h.strip_eq_nil_iff.mpr hblank)]

theorem hand_state (line : List α) (handed : List (List α)) (s : σ) :
    (h.hand line (h.fold handed s) handed).1 = h.fold (h.hand line (h.fold handed s) handed).2.1 s := by
  rw [hand]
  split
  · rfl
  · rw [fold, fold, List.foldl_append]
    rfl

/-- What throws stays in the buffer. -/
def flush (f : LineFeed α σ) : LineFeed α σ × Bool :=
  if h.strip f.buffer = [] then (f, false)
  else
    match h.hand f.buffer f.state f.handed with
    | (state, handed, true) => (⟨f.buffer, state, handed⟩, true)
    | (state, handed, false) => (⟨[], state, handed⟩, false)

theorem flush_of_blank {f : LineFeed α σ} (hblank : h.Blank f.buffer) : h.flush f = (f, false) := by
  rw [LineHandler.flush, if_pos (h.strip_eq_nil_iff.mpr hblank)]

theorem flush_handed {f : LineFeed α σ} (hbuffer : ¬ h.Blank f.buffer) :
    (h.flush f).1.handed = f.handed ++ h.toHand [f.buffer] := by
  have hhanded := h.hand_handed f.buffer f.state f.handed
  rw [LineHandler.flush, if_neg fun hnil => hbuffer (h.strip_eq_nil_iff.mp hnil)]
  rcases hhand : h.hand f.buffer f.state f.handed with ⟨state', handed', threw⟩
  rw [hhand] at hhanded
  cases threw <;> exact hhanded

theorem flush_buffer {f : LineFeed α σ} (hbuffer : ¬ h.Blank f.buffer) (hquiet : (h.flush f).2 = false) :
    (h.flush f).1.buffer = [] := by
  rw [LineHandler.flush, if_neg fun hnil => hbuffer (h.strip_eq_nil_iff.mp hnil)] at hquiet ⊢
  rcases hhand : h.hand f.buffer f.state f.handed with ⟨state', handed', threw⟩
  rw [hhand] at hquiet
  cases threw with
  | true => cases hquiet
  | false => rfl

/-! ## The reader -/

variable [DecidableEq α]

/-- The loop over the buffer: `line` is what it has passed since the last line end. A line that
throws is gone from the buffer, and the rest of it stays. -/
def drain (line : List α) : List α → σ → List (List α) → LineFeed α σ × Bool
  | [], state, handed => (⟨line, state, handed⟩, false)
  | a :: rest, state, handed =>
    if a = h.sep then
      match h.hand line state handed with
      | (state, handed, true) => (⟨rest, state, handed⟩, true)
      | (state, handed, false) => drain [] rest state handed
    else drain (line ++ [a]) rest state handed

def chunk (text : List α) (f : LineFeed α σ) : LineFeed α σ × Bool :=
  h.drain [] (f.buffer ++ text) f.state f.handed

def apply (op : FeedOp α) (f : LineFeed α σ) : LineFeed α σ × Bool :=
  match op with
  | .chunk text => h.chunk text f
  | .flush => h.flush f
  | .peek => (f, false)

/-- The reader after some operations, and whether one of them threw. -/
def exec : List (FeedOp α) → LineFeed α σ → LineFeed α σ × Bool
  | [], f => (f, false)
  | op :: ops, f => ((exec ops (h.apply op f).1).1, (h.apply op f).2 || (exec ops (h.apply op f).1).2)

def lines (text : List α) : List (List α) := text.splitOn h.sep

def lastLine (text : List α) : List α := (h.lines text).getLast?.getD []

/-- What the text has before its first line end. -/
def headLine (text : List α) : List α := (h.lines text).head?.getD []

def Undisturbed (text : List α) : List (FeedOp α) → Prop
  | [] => True
  | .chunk c :: ops => Undisturbed (text ++ c) ops
  | .flush :: ops => (h.Blank (h.lastLine text) ∨ h.Blank (h.headLine (FeedOp.fed ops))) ∧ Undisturbed text ops
  | .peek :: ops => Undisturbed text ops

def pending (buffer : List α) : List (FeedOp α) → List α
  | [] => buffer
  | .chunk c :: ops => pending (h.lastLine (buffer ++ c)) ops
  | .flush :: ops => pending (if h.Blank buffer then buffer else []) ops
  | .peek :: ops => pending buffer ops

/-! ## Lines -/

theorem lines_cut (text : List α) : ∃ front last, h.lines text = front ++ [last] ∧ h.sep ∉ last ∧
    ∀ more, h.lines (text ++ more) = front ++ h.lines (last ++ more) := by
  induction text with
  | nil => exact ⟨[], [], rfl, List.not_mem_nil, fun _ => rfl⟩
  | cons a text ih =>
    obtain ⟨front, last, hlines, hsep, hmore⟩ := ih
    simp only [lines] at hlines hmore ⊢
    simp only [List.cons_append, List.splitOn_cons_eq_if_modifyHead, hlines, hmore, beq_iff_eq]
    split
    · exact ⟨[] :: front, last, rfl, hsep, fun _ => rfl⟩
    next ha =>
      cases front with
      | nil =>
        refine ⟨[], a :: last, rfl, ?_, fun more => ?_⟩
        · rw [List.mem_cons, not_or]
          exact ⟨fun heq => ha heq.symm, hsep⟩
        · rw [List.nil_append, List.nil_append, List.cons_append, List.splitOn_cons_eq_if_modifyHead,
            if_neg (by simpa using ha)]
      | cons l front => exact ⟨(a :: l) :: front, last, rfl, hsep, fun _ => rfl⟩

theorem lines_append_of_not_mem {line : List α} (hline : h.sep ∉ line) (text : List α) :
    h.lines (line ++ text) = (h.lines text).modifyHead (line ++ ·) := by
  induction line with
  | nil =>
    cases hlines : h.lines text <;> simp [hlines]
  | cons a line ih =>
    rw [List.mem_cons, not_or] at hline
    rw [lines, List.cons_append, List.splitOn_cons_eq_if_modifyHead, if_neg (by simpa using Ne.symm hline.1)]
    rw [lines] at ih
    rw [ih hline.2, List.modifyHead_modifyHead]
    rfl

theorem lines_eq_cons (text : List α) : ∃ rest, h.lines text = h.headLine text :: rest := by
  cases hlines : h.lines text with
  | nil => exact absurd hlines (List.splitOn_ne_nil h.sep text)
  | cons l rest => exact ⟨rest, by rw [headLine, hlines]; rfl⟩

theorem lastLine_eq {text : List α} {front : List (List α)} {last : List α}
    (hlines : h.lines text = front ++ [last]) : h.lastLine text = last := by
  rw [lastLine, hlines, List.getLast?_concat]
  rfl

theorem drain_spec {line : List α} (hline : h.sep ∉ line) (text : List α) (state : σ) (handed : List (List α))
    {front : List (List α)} {last : List α} (hlines : h.lines (line ++ text) = front ++ [last])
    (hquiet : (h.drain line text state handed).2 = false) :
    (h.drain line text state handed).1.buffer = last ∧
      (h.drain line text state handed).1.handed = handed ++ h.toHand front := by
  induction text generalizing line state handed front with
  | nil =>
    rw [List.append_nil, lines, List.splitOn_eq_singleton hline] at hlines
    obtain ⟨rfl, hlast⟩ := List.append_inj' (show [] ++ [line] = front ++ [last] from hlines) rfl
    rw [List.cons.injEq] at hlast
    rw [drain]
    exact ⟨hlast.1, (List.append_nil _).symm⟩
  | cons a rest ih =>
    rw [drain] at hquiet ⊢
    split at hquiet
    next ha =>
      rw [if_pos ha]
      rw [ha, lines, List.splitOn_append_cons_self_of_not_mem hline] at hlines
      have hhanded := h.hand_handed line state handed
      rcases hhand : h.hand line state handed with ⟨state', handed', threw⟩
      rw [hhand] at hhanded hquiet
      cases threw with
      | true => cases hquiet
      | false =>
        obtain ⟨front', last', hcut, -⟩ := h.lines_cut rest
        rw [lines] at hcut
        rw [hcut, ← List.cons_append] at hlines
        obtain ⟨rfl, hlast⟩ := List.append_inj' hlines rfl
        rw [List.cons.injEq] at hlast
        obtain ⟨hbuffer, hrest⟩ := ih List.not_mem_nil state' handed' (hlast.1 ▸ hcut) hquiet
        refine ⟨hbuffer, hrest.trans ?_⟩
        rw [show handed' = handed ++ h.toHand [line] from hhanded, List.append_assoc, ← toHand_append]
        rfl
    next ha =>
      rw [if_neg ha]
      refine ih ?_ _ _ ?_ hquiet
      · rw [List.mem_append, List.mem_singleton, not_or]
        exact ⟨hline, fun heq => ha heq.symm⟩
      · rwa [List.append_assoc, List.singleton_append]

/-- A loop that hands only what does not throw gets through. -/
theorem drain_quiet {throws : List α → Bool} (hthrows : ∀ l s, (h.step l s).2 = throws l) {line : List α}
    (hline : h.sep ∉ line) (text : List α) (state : σ) (handed : List (List α)) {front : List (List α)}
    {last : List α} (hlines : h.lines (line ++ text) = front ++ [last])
    (hfront : ∀ l ∈ h.toHand front, throws l = false) : (h.drain line text state handed).2 = false := by
  induction text generalizing line state handed front with
  | nil => rfl
  | cons a rest ih =>
    rw [drain]
    split
    next ha =>
      rw [ha, lines, List.splitOn_append_cons_self_of_not_mem hline] at hlines
      obtain ⟨front', last', hcut, -⟩ := h.lines_cut rest
      rw [lines] at hcut
      rw [hcut, ← List.cons_append] at hlines
      obtain ⟨rfl, hlast⟩ := List.append_inj' hlines rfl
      rw [List.cons.injEq] at hlast
      rw [toHand_cons] at hfront
      have hquiet : (h.hand line state handed).2.2 = false := by
        rw [hand]
        split
        · rfl
        next hne =>
          rw [hthrows]
          refine hfront _ (List.mem_append_left _ ?_)
          rw [h.toHand_not_blank fun hblank => hne (h.strip_eq_nil_iff.mpr hblank)]
          exact List.mem_cons_self
      rcases hhand : h.hand line state handed with ⟨state', handed', threw⟩
      rw [hhand] at hquiet
      cases hquiet
      exact ih List.not_mem_nil state' handed' (hlast.1 ▸ hcut) fun l hl => hfront l (List.mem_append_right _ hl)
    next ha =>
      refine ih ?_ _ _ ?_ hfront
      · rw [List.mem_append, List.mem_singleton, not_or]
        exact ⟨hline, fun heq => ha heq.symm⟩
      · rwa [List.append_assoc, List.singleton_append]

/-! ## One operation -/

/-- Where a reader is in the text: of the line it breaks off in, `read` was flushed and the buffer
was not, and a part that was flushed goes on with nothing to read. `next` is what is to come of the
line. -/
structure At (text next : List α) (f : LineFeed α σ) (front : List (List α)) (read : List α) : Prop where
  lines : h.lines text = front ++ [read ++ f.buffer]
  open_line : h.sep ∉ read ++ f.buffer
  more : ∀ more, h.lines (text ++ more) = front ++ h.lines (read ++ f.buffer ++ more)
  handed : f.handed = h.toHand (front ++ [read])
  parts : h.Blank read ∨ h.Blank f.buffer ∧ h.Blank next

variable {h}

theorem eq_of_lines_singleton {text line : List α} (hlines : h.lines text = [line]) : text = line := by
  have hjoin : [h.sep].intercalate (text.splitOn h.sep) = text := List.intercalate_splitOn h.sep
  rw [LineHandler.lines] at hlines
  rw [← hjoin, hlines, List.intercalate_singleton]

theorem headLine_append_of_not_mem {line : List α} (hline : h.sep ∉ line) (text : List α) :
    h.headLine (line ++ text) = line ++ h.headLine text := by
  obtain ⟨rest, hrest⟩ := h.lines_eq_cons text
  rw [headLine, h.lines_append_of_not_mem hline, hrest]
  rfl

/-- The first of several lines is what a text starts with, whatever follows. -/
theorem headLine_append {text line : List α} {front : List (List α)} {last : List α}
    (hlines : h.lines text = line :: front ++ [last]) (more : List α) : h.headLine (text ++ more) = line := by
  obtain ⟨front', last', hcut, -, hmore⟩ := h.lines_cut text
  rw [hlines] at hcut
  obtain ⟨rfl, -⟩ := List.append_inj' hcut rfl
  rw [headLine, hmore]
  rfl

/-- What `c` brings: the lines that end in it and the one that it breaks off in. -/
theorem At.cut {text c later : List α} {f : LineFeed α σ} {front : List (List α)} {read : List α}
    (hat : h.At text (h.headLine (c ++ later)) f front read) :
    ∃ cfront last front' read', h.lines (f.buffer ++ c) = cfront ++ [last] ∧
      ∀ f' : LineFeed α σ, f'.buffer = last → f'.handed = f.handed ++ h.toHand cfront →
        h.At (text ++ c) (h.headLine later) f' front' read' := by
  obtain ⟨cfront, last, hcut, hsep, hmore⟩ := h.lines_cut (f.buffer ++ c)
  have hread : h.sep ∉ read := fun hmem => hat.open_line (List.mem_append_left _ hmem)
  have hold : h.sep ∉ f.buffer := fun hmem => hat.open_line (List.mem_append_right _ hmem)
  have hall : ∀ m, h.lines (text ++ c ++ m) =
      front ++ (h.lines (f.buffer ++ c ++ m)).modifyHead (read ++ ·) := by
    intro m
    rw [List.append_assoc, hat.more, List.append_assoc, h.lines_append_of_not_mem hread, List.append_assoc]
  have hlines : h.lines (text ++ c) = front ++ (h.lines (f.buffer ++ c)).modifyHead (read ++ ·) := by
    simpa using hall []
  cases cfront with
  | nil =>
    have hlast : f.buffer ++ c = last := eq_of_lines_singleton hcut
    have hc : h.sep ∉ c := fun hmem => hsep (hlast ▸ List.mem_append_right _ hmem)
    refine ⟨[], last, front, read, hcut, fun f' hbuffer hhanded => ⟨?_, ?_, fun m => ?_, ?_, ?_⟩⟩
    · rw [hlines, hcut, hbuffer]
      rfl
    · rw [hbuffer, List.mem_append, not_or]
      exact ⟨hread, hsep⟩
    · rw [hall, hbuffer, ← hlast, List.append_assoc read, h.lines_append_of_not_mem hread]
    · rw [hhanded, hat.handed]
      exact List.append_nil _
    · refine hat.parts.imp id fun ⟨hblank, hnext⟩ => ?_
      rw [headLine_append_of_not_mem hc, blank_append] at hnext
      rw [hbuffer, ← hlast, blank_append]
      exact ⟨⟨hblank, hnext.1⟩, hnext.2⟩
  | cons l cfront =>
    have hparts : h.Blank read ∨ h.Blank l := by
      refine hat.parts.imp id fun ⟨hblank, hnext⟩ => ?_
      obtain ⟨front', last', hcut', -, -⟩ := h.lines_cut c
      have hhead := hcut
      rw [h.lines_append_of_not_mem hold, hcut'] at hhead
      cases front' with
      | nil => exact absurd (congrArg List.length hhead) (by simp)
      | cons l' front' =>
        rw [headLine_append hcut'] at hnext
        have hl : f.buffer ++ l' = l := (List.cons.inj hhead).1
        rw [← hl, blank_append]
        exact ⟨hblank, hnext⟩
    refine ⟨l :: cfront, last, front ++ (read ++ l) :: cfront, [], hcut,
      fun f' hbuffer hhanded => ⟨?_, ?_, fun m => ?_, ?_, .inl nofun⟩⟩
    · rw [hlines, hcut, hbuffer, List.append_assoc]
      rfl
    · rw [hbuffer]
      exact hsep
    · rw [hall, hmore, hbuffer, List.append_assoc]
      rfl
    · rw [hhanded, hat.handed, h.toHand_front hparts]

theorem At.lastLine {text next : List α} {f : LineFeed α σ} {front : List (List α)} {read : List α}
    (hat : h.At text next f front read) : h.lastLine text = read ++ f.buffer := h.lastLine_eq hat.lines

theorem At.flushed {text next : List α} {f : LineFeed α σ} {front : List (List α)} {read : List α}
    (hat : h.At text next f front read) (hsafe : h.Blank (h.lastLine text) ∨ h.Blank next)
    (hbuffer : ¬ h.Blank f.buffer) (f' : LineFeed α σ) (hempty : f'.buffer = [])
    (hhanded : f'.handed = f.handed ++ h.toHand [f.buffer]) : h.At text next f' front (read ++ f.buffer) := by
  have hread : h.Blank read := hat.parts.resolve_right fun hblank => hbuffer hblank.1
  have hnext : h.Blank next := by
    refine hsafe.resolve_left fun hlast => hbuffer ?_
    rw [hat.lastLine, blank_append] at hlast
    exact hlast.2
  refine ⟨?_, ?_, fun m => ?_, ?_, .inr ⟨?_, hnext⟩⟩
  · rw [hempty, hat.lines, List.append_nil]
  · rw [hempty, List.append_nil]
    exact hat.open_line
  · rw [hempty, List.append_nil]
    exact hat.more m
  · rw [hhanded, hat.handed, toHand_append, List.append_assoc, h.toHand_parts (.inl hread), ← toHand_append]
  · rw [hempty]
    exact nofun

theorem At.mem_toHand {text later : List α} {f : LineFeed α σ} {front : List (List α)} {read : List α}
    (hat : h.At text (h.headLine later) f front read) {l : List α} (hl : l ∈ f.handed) :
    l ∈ h.toHand (h.lines (text ++ later)) := by
  obtain ⟨rest, hrest⟩ := h.lines_eq_cons later
  rw [hat.handed, toHand_append] at hl
  rw [hat.more, h.lines_append_of_not_mem hat.open_line, hrest, toHand_append]
  rcases List.mem_append.mp hl with hl | hl
  · exact List.mem_append_left _ hl
  · refine List.mem_append_right _ ?_
    rw [List.modifyHead_cons, toHand_cons]
    refine List.mem_append_left _ ?_
    rcases hat.parts with hread | ⟨hblank, hnext⟩
    · rw [h.toHand_blank hread] at hl
      cases hl
    · rwa [← h.toHand_parts (.inr hnext), h.toHand_blank hnext, List.append_nil,
        ← h.toHand_parts (.inr hblank), h.toHand_blank hblank, List.append_nil]

theorem chunk_spec {c : List α} {f : LineFeed α σ} {front : List (List α)} {last : List α}
    (hcut : h.lines (f.buffer ++ c) = front ++ [last]) (hquiet : (h.chunk c f).2 = false) :
    (h.chunk c f).1.buffer = last ∧ (h.chunk c f).1.handed = f.handed ++ h.toHand front :=
  h.drain_spec List.not_mem_nil _ _ _ hcut hquiet

theorem At.chunk {text c later : List α} {f : LineFeed α σ} {front : List (List α)} {read : List α}
    (hat : h.At text (h.headLine (c ++ later)) f front read) (hquiet : (h.chunk c f).2 = false) :
    ∃ front' read', h.At (text ++ c) (h.headLine later) (h.chunk c f).1 front' read' := by
  obtain ⟨cfront, last, front', read', hcut, hall⟩ := hat.cut
  obtain ⟨hbuffer, hhanded⟩ := chunk_spec hcut hquiet
  exact ⟨front', read', hall _ hbuffer hhanded⟩

theorem At.flush {text next : List α} {f : LineFeed α σ} {front : List (List α)} {read : List α}
    (hat : h.At text next f front read) (hsafe : h.Blank (h.lastLine text) ∨ h.Blank next)
    (hquiet : (h.flush f).2 = false) : ∃ read', h.At text next (h.flush f).1 front read' := by
  by_cases hbuffer : h.Blank f.buffer
  · rw [h.flush_of_blank hbuffer]
    exact ⟨read, hat⟩
  · exact ⟨_, hat.flushed hsafe hbuffer _ (h.flush_buffer hbuffer hquiet) (h.flush_handed hbuffer)⟩

section quiet

variable {throws : List α → Bool} (hthrows : ∀ l s, (h.step l s).2 = throws l)

include hthrows

theorem At.chunk_quiet {text c later : List α} {f : LineFeed α σ} {front : List (List α)} {read : List α}
    (hat : h.At text (h.headLine (c ++ later)) f front read)
    (hlines : ∀ l ∈ h.toHand (h.lines (text ++ c ++ later)), throws l = false) : (h.chunk c f).2 = false := by
  obtain ⟨cfront, last, front', read', hcut, hall⟩ := hat.cut
  have hat' := hall ⟨last, f.state, f.handed ++ h.toHand cfront⟩ rfl rfl
  exact h.drain_quiet hthrows List.not_mem_nil _ _ _ hcut fun l hl =>
    hlines l (hat'.mem_toHand (List.mem_append_right _ hl))

theorem At.flush_quiet {text later : List α} {f : LineFeed α σ} {front : List (List α)} {read : List α}
    (hat : h.At text (h.headLine later) f front read)
    (hsafe : h.Blank (h.lastLine text) ∨ h.Blank (h.headLine later))
    (hlines : ∀ l ∈ h.toHand (h.lines (text ++ later)), throws l = false) : (h.flush f).2 = false := by
  by_cases hbuffer : h.Blank f.buffer
  · rw [h.flush_of_blank hbuffer]
  · have hat' := hat.flushed hsafe hbuffer ⟨[], f.state, f.handed ++ h.toHand [f.buffer]⟩ rfl rfl
    have hnot := hlines (h.strip f.buffer) (hat'.mem_toHand (List.mem_append_right _
      (h.toHand_not_blank hbuffer ▸ List.mem_cons_self)))
    have hstrip : ¬ h.strip f.buffer = [] := fun hnil => hbuffer (h.strip_eq_nil_iff.mp hnil)
    rw [LineHandler.flush, if_neg hstrip, hand, if_neg hstrip, hthrows, hnot]

end quiet

/-! ## Runs -/

theorem apply_buffer {op : FeedOp α} {f : LineFeed α σ} (hquiet : (h.apply op f).2 = false) (ops : List (FeedOp α)) :
    h.pending f.buffer (op :: ops) = h.pending (h.apply op f).1.buffer ops := by
  cases op with
  | chunk c =>
    obtain ⟨front, last, hcut, -⟩ := h.lines_cut (f.buffer ++ c)
    rw [pending, apply, (chunk_spec hcut hquiet).1, h.lastLine_eq hcut]
  | flush =>
    rw [pending, apply]
    split
    next hblank => rw [h.flush_of_blank hblank]
    next hbuffer => rw [h.flush_buffer hbuffer hquiet]
  | peek => rfl

theorem exec_buffer {f : LineFeed α σ} (hquiet : (h.exec ops f).2 = false) :
    (h.exec ops f).1.buffer = h.pending f.buffer ops := by
  induction ops generalizing f with
  | nil => rfl
  | cons op ops ih =>
    rw [exec, Bool.or_eq_false_iff] at hquiet
    rw [apply_buffer hquiet.1, ← ih hquiet.2]
    rfl

/-! What each line that is handed keeps, a run that does not throw keeps. -/

section keep

variable {I : σ → List (List α) → Prop} (hhand : ∀ line state handed, I state handed →
  (h.hand line state handed).2.2 = false → I (h.hand line state handed).1 (h.hand line state handed).2.1)

include hhand

theorem drain_keeps (line text : List α) {state : σ} {handed : List (List α)} (hI : I state handed)
    (hquiet : (h.drain line text state handed).2 = false) :
    I (h.drain line text state handed).1.state (h.drain line text state handed).1.handed := by
  induction text generalizing line state handed with
  | nil => exact hI
  | cons a rest ih =>
    rw [drain] at hquiet ⊢
    split at hquiet
    next ha =>
      rw [if_pos ha]
      have hkept := hhand line state handed hI
      rcases hline : h.hand line state handed with ⟨state', handed', threw⟩
      rw [hline] at hkept hquiet
      cases threw with
      | true => cases hquiet
      | false => exact ih [] (hkept rfl) hquiet
    next ha =>
      rw [if_neg ha]
      exact ih _ hI hquiet

theorem apply_keeps {op : FeedOp α} {f : LineFeed α σ} (hI : I f.state f.handed)
    (hquiet : (h.apply op f).2 = false) : I (h.apply op f).1.state (h.apply op f).1.handed := by
  cases op with
  | chunk c => exact drain_keeps hhand [] _ hI hquiet
  | flush =>
    rw [apply, flush] at hquiet ⊢
    split at hquiet
    next hnil => rwa [if_pos hnil]
    next hne =>
      rw [if_neg hne]
      have hkept := hhand f.buffer f.state f.handed hI
      rcases hline : h.hand f.buffer f.state f.handed with ⟨state', handed', threw⟩
      rw [hline] at hkept hquiet
      cases threw with
      | true => cases hquiet
      | false => exact hkept rfl
  | peek => exact hI

theorem exec_keeps {ops : List (FeedOp α)} {f : LineFeed α σ} (hI : I f.state f.handed)
    (hquiet : (h.exec ops f).2 = false) : I (h.exec ops f).1.state (h.exec ops f).1.handed := by
  induction ops generalizing f with
  | nil => exact hI
  | cons op ops ih =>
    rw [exec, Bool.or_eq_false_iff] at hquiet
    exact ih (apply_keeps hhand hI hquiet.1) hquiet.2

end keep

theorem exec_state {ops : List (FeedOp α)} {f : LineFeed α σ} {s : σ} (hf : f.state = h.fold f.handed s)
    (hquiet : (h.exec ops f).2 = false) : (h.exec ops f).1.state = h.fold (h.exec ops f).1.handed s := by
  refine exec_keeps (I := fun state handed => state = h.fold handed s) (fun line state handed hstate _ => ?_) hf hquiet
  rw [hstate]
  exact h.hand_state line handed s

theorem exec_handed_prefix {ops : List (FeedOp α)} {f : LineFeed α σ} (hquiet : (h.exec ops f).2 = false) :
    f.handed <+: (h.exec ops f).1.handed := by
  refine exec_keeps (I := fun _ handed => f.handed <+: handed) (fun line state handed hpre _ => ?_)
    List.prefix_rfl hquiet
  rw [h.hand_handed]
  exact hpre.trans (List.prefix_append _ _)

theorem exec_at {throws : List α → Bool} (hthrows : ∀ l s, (h.step l s).2 = throws l) {ops : List (FeedOp α)}
    {text : List α} {f : LineFeed α σ} {front : List (List α)} {read : List α}
    (hat : h.At text (h.headLine (FeedOp.fed ops)) f front read) (hsafe : h.Undisturbed text ops)
    (hlines : ∀ l ∈ h.toHand (h.lines (text ++ FeedOp.fed ops)), throws l = false) :
    (h.exec ops f).2 = false ∧
      ∃ front' read', h.At (text ++ FeedOp.fed ops) [] (h.exec ops f).1 front' read' := by
  induction ops generalizing text f front read with
  | nil =>
    refine ⟨rfl, front, read, ?_⟩
    rw [FeedOp.fed, List.append_nil]
    exact hat
  | cons op ops ih =>
    cases op with
    | chunk c =>
      rw [FeedOp.fed, ← List.append_assoc] at hlines
      have hquiet := hat.chunk_quiet hthrows hlines
      obtain ⟨front', read', hat'⟩ := hat.chunk hquiet
      obtain ⟨hrest, hend⟩ := ih hat' hsafe hlines
      rw [FeedOp.fed, ← List.append_assoc]
      exact ⟨Bool.or_eq_false_iff.mpr ⟨hquiet, hrest⟩, hend⟩
    | flush =>
      have hquiet := hat.flush_quiet hthrows hsafe.1 hlines
      obtain ⟨read', hat'⟩ := hat.flush hsafe.1 hquiet
      obtain ⟨hrest, hend⟩ := ih hat' hsafe.2 hlines
      exact ⟨Bool.or_eq_false_iff.mpr ⟨hquiet, hrest⟩, hend⟩
    | peek => exact ih hat hsafe hlines

/-- The first part that is taken of a line shows among the lines that were handed. -/
theorem undisturbed_of_complete {ops : List (FeedOp α)} {text : List α} {f : LineFeed α σ}
    {front : List (List α)} {read : List α} (hat : h.At text (h.headLine (FeedOp.fed ops)) f front read)
    (hquiet : (h.exec ops f).2 = false)
    (hall : (h.exec ops f).1.handed = h.toHand (h.lines (text ++ FeedOp.fed ops))) : h.Undisturbed text ops := by
  induction ops generalizing text f front read with
  | nil => trivial
  | cons op ops ih =>
    rw [exec, Bool.or_eq_false_iff] at hquiet
    cases op with
    | chunk c =>
      obtain ⟨front', read', hat'⟩ := hat.chunk hquiet.1
      rw [FeedOp.fed, ← List.append_assoc] at hall
      exact ih hat' hquiet.2 hall
    | flush =>
      have hsafe : h.Blank (h.lastLine text) ∨ h.Blank (h.headLine (FeedOp.fed ops)) := by
        by_contra hcut
        rw [not_or] at hcut
        have hread : h.Blank read := hat.parts.resolve_right fun hblank => hcut.2 hblank.2
        have hbuffer : ¬ h.Blank f.buffer := fun hblank => hcut.1 (by
          rw [hat.lastLine, blank_append]
          exact ⟨hread, hblank⟩)
        -- what the flush took of the line stays where the whole line has to stand
        have hpre := exec_handed_prefix hquiet.2
        obtain ⟨rest, hrest⟩ := h.lines_eq_cons (FeedOp.fed ops)
        rw [show (h.exec ops (h.apply .flush f).1).1.handed = _ from hall, apply, h.flush_handed hbuffer,
          hat.handed, FeedOp.fed, hat.more, h.lines_append_of_not_mem hat.open_line, hrest, toHand_append,
          toHand_append, h.toHand_blank hread, List.append_nil, h.toHand_not_blank hbuffer,
          List.prefix_append_right_inj, List.modifyHead_cons, toHand_cons, ← hat.lastLine, h.toHand_not_blank fun hblank => hcut.1 (h.blank_append.mp hblank).1,
          List.cons_append, List.cons_prefix_cons] at hpre
        refine h.strip_append_ne hcut.1 hcut.2 (hpre.1.symm.trans ?_)
        rw [hat.lastLine, h.strip_append_of_blank_left hread]
      obtain ⟨read', hat'⟩ := hat.flush hsafe hquiet.1
      exact ⟨hsafe, ih hat' hquiet.2 hall⟩
    | peek => exact ih hat hquiet.2 hall

theorem At.complete_iff {text next : List α} {f : LineFeed α σ} {front : List (List α)} {read : List α}
    (hat : h.At text next f front read) : f.handed = h.toHand (h.lines text) ↔ h.Blank f.buffer := by
  rw [hat.handed, hat.lines, toHand_append, toHand_append, List.append_cancel_left_eq]
  constructor
  · intro heq
    by_contra hbuffer
    by_cases hread : h.Blank read
    · rw [h.toHand_blank hread, ← h.toHand_parts (.inl hread), h.toHand_not_blank hbuffer] at heq
      exact absurd (List.append_eq_nil_iff.mp heq.symm).2 (List.cons_ne_nil _ _)
    · rw [h.toHand_not_blank hread, h.toHand_not_blank fun hblank => hread (h.blank_append.mp hblank).1] at heq
      exact h.strip_append_ne hread hbuffer (List.cons.inj heq).1.symm
  · intro hblank
    rw [← h.toHand_parts (.inr hblank), h.toHand_blank hblank, List.append_nil]

/-- **Every line is handed once, in order and with nothing thrown, just when no line throws, no flush
takes one apart and nothing is pending.** -/
theorem exec_complete_iff {throws : List α → Bool} (hthrows : ∀ l s, (h.step l s).2 = throws l)
    (ops : List (FeedOp α)) (s : σ) :
    (h.exec ops ⟨[], s, []⟩).2 = false ∧
        (h.exec ops ⟨[], s, []⟩).1.handed = h.toHand (h.lines (FeedOp.fed ops)) ↔
      (∀ l ∈ h.toHand (h.lines (FeedOp.fed ops)), throws l = false) ∧ h.Undisturbed [] ops ∧
        h.Blank (h.pending [] ops) := by
  have hnil : h.Blank [] := nofun
  have hat : h.At [] (h.headLine (FeedOp.fed ops)) ⟨[], s, []⟩ [] [] :=
    ⟨rfl, List.not_mem_nil, fun _ => rfl, (h.toHand_blank hnil).symm, .inl hnil⟩
  constructor
  · rintro ⟨hquiet, hall⟩
    have hlines : ∀ l ∈ h.toHand (h.lines (FeedOp.fed ops)), throws l = false := by
      rw [← hall]
      refine exec_keeps (I := fun _ handed => ∀ l ∈ handed, throws l = false) (fun line state handed hold hline => ?_)
        nofun hquiet
      rw [hand] at hline ⊢
      split at hline
      next hnil => rwa [if_pos hnil]
      next hne =>
        rw [if_neg hne]
        rw [hthrows] at hline
        intro l hl
        rcases List.mem_append.mp hl with hl | hl
        · exact hold l hl
        · rwa [List.mem_singleton.mp hl]
    have hsafe := undisturbed_of_complete hat hquiet hall
    obtain ⟨-, front', read', hend⟩ := exec_at hthrows hat hsafe hlines
    refine ⟨hlines, hsafe, ?_⟩
    have hbuffer := exec_buffer hquiet
    rw [← hbuffer]
    exact hend.complete_iff.mp hall
  · rintro ⟨hlines, hsafe, hpending⟩
    obtain ⟨hquiet, front', read', hend⟩ := exec_at hthrows hat hsafe hlines
    refine ⟨hquiet, hend.complete_iff.mpr ?_⟩
    rwa [exec_buffer hquiet]

/-! ## The last operation -/

omit [DecidableEq α] in
theorem fed_concat {op : FeedOp α} (hop : FeedOp.fed [op] = []) (ops : List (FeedOp α)) :
    FeedOp.fed (ops ++ [op]) = FeedOp.fed ops := by
  induction ops with
  | nil => exact hop
  | cons first ops ih =>
    cases first with
    | chunk c => rw [List.cons_append, FeedOp.fed, FeedOp.fed, ih]
    | flush => exact ih
    | peek => exact ih

theorem exec_concat (ops : List (FeedOp α)) (op : FeedOp α) (f : LineFeed α σ) :
    h.exec (ops ++ [op]) f =
      ((h.apply op (h.exec ops f).1).1, (h.exec ops f).2 || (h.apply op (h.exec ops f).1).2) := by
  induction ops generalizing f with
  | nil => simp [exec]
  | cons first ops ih => rw [List.cons_append, exec, ih, exec, Bool.or_assoc]

theorem undisturbed_concat {op : FeedOp α} (hop : FeedOp.fed [op] = []) {text : List α} {ops : List (FeedOp α)} :
    h.Undisturbed text (ops ++ [op]) ↔ h.Undisturbed text ops := by
  induction ops generalizing text with
  | nil =>
    cases op with
    | chunk c =>
      exact iff_of_true trivial trivial
    | flush => exact iff_of_true ⟨.inr nofun, trivial⟩ trivial
    | peek => exact Iff.rfl
  | cons first ops ih =>
    cases first with
    | chunk c => exact ih
    | flush =>
      rw [List.cons_append, Undisturbed, Undisturbed, fed_concat hop, ih]
    | peek => exact ih

theorem pending_concat (buffer : List α) (ops : List (FeedOp α)) (op : FeedOp α) :
    h.pending buffer (ops ++ [op]) = h.pending (h.pending buffer ops) [op] := by
  induction ops generalizing buffer with
  | nil => rfl
  | cons first ops ih =>
    cases first with
    | chunk c => exact ih _
    | flush => exact ih _
    | peek => exact ih _

end LineHandler

end Lib

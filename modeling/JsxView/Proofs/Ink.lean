import JsxView.Proofs.FrameFill
/-!
# Ink — a frame read as text on backgrounds

To a terminal a text has the background that was set last before it.  Read so a frame is a list of texts, each in its
row and on its background (`inksFrom`).  What stands on one background is read off whatever was set before the frame
(`Marks`), and each part of a pane stands on a background of its own (`PaintsOn`): the raw pane and the separator on
the one of the theme, the highlighted pane on the one of its line.

So the background of the pinned line is used for the highlighted pane of that line, for all of it, and nowhere else
(`exists_marks_draw`, `marks_draw_of_not_pinned`).
-/
namespace JsxView

/-- Where a terminal writes next and on which background. -/
structure Pen where
  row : Nat
  bg : Color

/-- Text in its row and on its background. -/
structure Ink where
  row : Nat
  bg : Color
  text : List Char
  deriving DecidableEq, Repr

/-- The pen after an operation. -/
def Pen.next (pen : Pen) : ScreenOp → Pen
  | .moveTo row _ => { pen with row }
  | .background red green blue => { pen with bg := .rgb red green blue }
  | .resetStyle => { pen with bg := .inherited }
  | _ => pen

/-- The pen after some operations. -/
def Pen.after (pen : Pen) (ops : List ScreenOp) : Pen :=
  ops.foldl Pen.next pen

/-- **The texts that operations write**, each in its row and on its background. -/
def inksFrom (pen : Pen) : List ScreenOp → List Ink
  | [] => []
  | .write text :: ops => ⟨pen.row, pen.bg, text⟩ :: inksFrom pen ops
  | op :: ops => inksFrom (pen.next op) ops

theorem inksFrom_append : ∀ (pen : Pen) (a b : List ScreenOp),
    inksFrom pen (a ++ b) = inksFrom pen a ++ inksFrom (pen.after a) b
  | _, [], _ => rfl
  | pen, op :: a, b => by
    have ih := inksFrom_append (pen.next op) a b
    cases op with
    | write text => exact congrArg (⟨pen.row, pen.bg, text⟩ :: ·) ih
    | _ => exact ih

theorem Pen.after_append (pen : Pen) (a b : List ScreenOp) : pen.after (a ++ b) = (pen.after a).after b :=
  List.foldl_append

/-! ## Text on one background -/

/-- **Operations that write a text on a background**, in pieces and into the row of the pen, whatever was set before. -/
structure PaintsOn (bg : Color) (ops : List ScreenOp) (text : List Char) : Prop where
  inks : ∃ pieces : List (List Char),
    (∀ pen : Pen, inksFrom pen ops = pieces.map (⟨pen.row, bg, ·⟩)) ∧ pieces.flatten = text
  row : ∀ pen : Pen, (pen.after ops).row = pen.row

namespace PaintsOn

variable {bg : Color} {a b : List ScreenOp} {s t : List Char}

theorem nil : PaintsOn bg [] [] :=
  ⟨⟨[], fun _ => rfl, rfl⟩, fun _ => rfl⟩

theorem append (ha : PaintsOn bg a s) (hb : PaintsOn bg b t) : PaintsOn bg (a ++ b) (s ++ t) where
  inks := by
    obtain ⟨first, hfirst, hs⟩ := ha.inks
    obtain ⟨second, hsecond, ht⟩ := hb.inks
    refine ⟨first ++ second, fun pen => ?_, ?_⟩
    · rw [inksFrom_append, hfirst, hsecond, ha.row, List.map_append]
    · rw [List.flatten_append, hs, ht]
  row pen := by
    rw [Pen.after_append, hb.row, ha.row]

theorem flatMap {α : Type} {f : α → List ScreenOp} {g : α → List Char} : ∀ {l : List α},
    (∀ x ∈ l, PaintsOn bg (f x) (g x)) → PaintsOn bg (l.flatMap f) (l.flatMap g)
  | [], _ => nil
  | x :: l, h => by
    rw [List.flatMap_cons, List.flatMap_cons]
    exact (h x List.mem_cons_self).append (flatMap fun y hy => h y (List.mem_cons_of_mem _ hy))

end PaintsOn

theorem paintsOn_writeStyled (style : Style) (text : List Char) : PaintsOn style.bg (writeStyled style text) text := by
  obtain ⟨fg, bg, bold, italic⟩ := style
  constructor
  · refine ⟨[text], fun pen => ?_, List.append_nil text⟩
    cases fg <;> cases bg <;> cases bold <;> cases italic <;> rfl
  · intro pen
    cases fg <;> cases bg <;> cases bold <;> cases italic <;> rfl

/-! ## Panes -/

theorem styleAt_bg (spans : List Span) (base : Style) (byte : Nat) : (styleAt spans base byte).bg = base.bg := by
  unfold styleAt
  split
  · split <;> rfl
  · rfl

theorem style_of_mem_joinRuns {run : Run} : ∀ {pieces : List (List Char × Style)}, run ∈ joinRuns pieces →
    ∃ piece ∈ pieces, run.style = piece.2
  | [], h => by cases h
  | (text, style) :: rest, h => by
    rw [joinRuns] at h
    have ih := fun hrun : run ∈ joinRuns rest => style_of_mem_joinRuns hrun
    generalize joinRuns rest = runs at h ih
    cases runs with
    | nil =>
      rw [List.mem_singleton.1 h]
      exact ⟨_, List.mem_cons_self, rfl⟩
    | cons first more =>
      -- the first run of the rest is joined with the piece, or the piece is a run of its own
      have hcases : run.style = style ∨ run ∈ first :: more := by
        dsimp only at h
        split at h
        · rcases List.mem_cons.1 h with rfl | h
          · exact .inl rfl
          · exact .inr (List.mem_cons_of_mem _ h)
        · rcases List.mem_cons.1 h with rfl | h
          · exact .inl rfl
          · exact .inr h
      rcases hcases with hstyle | hmem
      · exact ⟨_, List.mem_cons_self, hstyle⟩
      · obtain ⟨piece, hpiece, hstyle⟩ := ih hmem
        exact ⟨piece, List.mem_cons_of_mem _ hpiece, hstyle⟩

/-- The colors of a line's text do not touch its background. -/
theorem bg_of_mem_styledRuns {line : List Char} {spans : List Span} {base : Style} {skip room tabWidth : Nat} {run : Run}
    (h : run ∈ (styledRuns line spans base skip room tabWidth).1) : run.style.bg = base.bg := by
  obtain ⟨piece, hpiece, hstyle⟩ := style_of_mem_joinRuns h
  obtain ⟨cell, -, rfl⟩ := List.mem_map.1 hpiece
  rw [hstyle]
  exact styleAt_bg spans base cell.byte

namespace Frame

theorem paintsOn_fill (style : Style) (width : Nat) : PaintsOn style.bg (fill style width) (spaces width) := by
  unfold fill
  split
  · rename_i hwidth
    subst hwidth
    exact .nil
  · exact paintsOn_writeStyled style (spaces width)

theorem paintsOn_drawPane (line : Option (List Char)) (spans : List Span) (style : Style) (skip width tabWidth : Nat) :
    PaintsOn style.bg (drawPane line spans style skip width tabWidth) (paneText line skip width tabWidth) := by
  cases line with
  | none => exact paintsOn_fill style width
  | some text =>
    have hruns : PaintsOn style.bg (drawRuns (styledRuns text spans style skip width tabWidth).1)
        (runsText (styledRuns text spans style skip width tabWidth).1) :=
      PaintsOn.flatMap fun run hrun => bg_of_mem_styledRuns hrun ▸ paintsOn_writeStyled run.style run.text
    rw [runsText_styledRuns] at hruns
    exact hruns.append (paintsOn_fill style _)

variable (scene : Scene) (layout : Layout) (tabWidth : Nat)

theorem paintsOn_lineNumber (index width : Nat) :
    PaintsOn (scene.lineStyle index).bg (lineNumber scene index width) (numberText index width) := by
  unfold lineNumber numberText
  split
  · exact .nil
  · exact paintsOn_writeStyled { fg := scene.view.theme.palette.lineNumber, bg := (scene.lineStyle index).bg } _

theorem paintsOn_rightPane [Engine] (index : Nat) (line : Option (List Char)) :
    PaintsOn (scene.lineStyle index).bg (rightPane scene layout tabWidth index line)
      (rightText scene layout tabWidth index line) := by
  cases line with
  | none => exact paintsOn_drawPane none [] _ 0 layout.rightWidth tabWidth
  | some text => exact (paintsOn_lineNumber scene index _).append (paintsOn_drawPane (some text) _ _ 0 _ tabWidth)

theorem paintsOn_leftPane (line : Option (List Char)) :
    PaintsOn scene.view.theme.palette.background (leftPane scene layout tabWidth line)
      (leftText scene layout tabWidth line) :=
  paintsOn_drawPane line [] scene.base scene.leftCol layout.leftWidth tabWidth

theorem paintsOn_separator :
    PaintsOn scene.view.theme.palette.background (separator scene layout) (separatorText layout) := by
  unfold separator separatorText
  split
  · exact paintsOn_writeStyled { fg := scene.view.theme.palette.border, bg := scene.view.theme.palette.background } _
  · exact .nil

end Frame

/-! ## What stands on one background -/

/-- **What operations write on a background**, whatever was set before. -/
def Marks (bg : Color) (ops : List ScreenOp) (marked : List Ink) : Prop :=
  ∀ pen, (inksFrom pen ops).filter (·.bg = bg) = marked

namespace Marks

variable {bg : Color} {a b : List ScreenOp} {s t : List Ink}

theorem append (ha : Marks bg a s) (hb : Marks bg b t) : Marks bg (a ++ b) (s ++ t) := by
  intro pen
  rw [inksFrom_append, List.filter_append, ha, hb]

theorem flatMap {α : Type} {f : α → List ScreenOp} {g : α → List Ink} : ∀ {l : List α},
    (∀ x ∈ l, Marks bg (f x) (g x)) → Marks bg (l.flatMap f) (l.flatMap g)
  | [], _ => fun _ => rfl
  | x :: l, h => by
    rw [List.flatMap_cons, List.flatMap_cons]
    exact (h x List.mem_cons_self).append (flatMap fun y hy => h y (List.mem_cons_of_mem _ hy))

/-- What is written on another background does not count. -/
theorem of_paintsOn {other : Color} {text : List Char} (h : PaintsOn other a text) (hother : other ≠ bg) :
    Marks bg a [] := by
  obtain ⟨pieces, hinks, -⟩ := h.inks
  intro pen
  rw [hinks, List.filter_eq_nil_iff]
  intro ink hink
  obtain ⟨piece, -, rfl⟩ := List.mem_map.1 hink
  simpa using hother

theorem move {marked : List Ink} (h : Marks bg a marked) (row col : Nat) : Marks bg (.moveTo row col :: a) marked :=
  fun pen => h (pen.next (.moveTo row col))

end Marks

/-- What is written behind a move counts in the row of the move. -/
theorem PaintsOn.exists_marks {bg : Color} {before ops : List ScreenOp} {text : List Char} (h : PaintsOn bg ops text)
    {other : Color} {left : List Char} (hbefore : PaintsOn other before left) (hother : other ≠ bg) (row col : Nat) :
    ∃ pieces : List (List Char), Marks bg (.moveTo row col :: before ++ ops) (pieces.map (⟨row, bg, ·⟩)) ∧
      pieces.flatten = text := by
  obtain ⟨pieces, hinks, htext⟩ := h.inks
  refine ⟨pieces, fun pen => ?_, htext⟩
  have hrow : ((pen.next (.moveTo row col)).after before).row = row := hbefore.row _
  show (inksFrom (pen.next (.moveTo row col)) (before ++ ops)).filter _ = _
  rw [inksFrom_append, List.filter_append, Marks.of_paintsOn hbefore hother, hinks, hrow, List.nil_append,
    List.filter_eq_self.2]
  intro ink hink
  obtain ⟨piece, -, rfl⟩ := List.mem_map.1 hink
  exact decide_eq_true rfl

theorem Theme.background_ne_highlight (theme : Theme) : theme.palette.background ≠ theme.palette.highlight := by
  cases theme <;> decide

theorem Theme.inherited_ne_highlight (theme : Theme) : Color.inherited ≠ theme.palette.highlight := by
  cases theme <;> decide

theorem flatMap_range_ite {α : Type} (n k : Nat) (l : List α) :
    (List.range n).flatMap (fun i => if i = k then l else []) = if k < n then l else [] := by
  induction n with
  | zero => rfl
  | succ n ih =>
    rw [List.range_succ, List.flatMap_append, ih, List.flatMap_singleton]
    rcases Nat.lt_trichotomy n k with h | rfl | h
    · rw [if_neg (by omega), if_neg (by omega), if_neg (by omega), List.append_nil]
    · rw [if_neg (by omega), if_pos rfl, if_pos (by omega), List.nil_append]
    · rw [if_pos h, if_neg (by omega), if_pos (by omega), List.append_nil]

namespace Frame

variable (scene : Scene) (layout : Layout) (tabWidth : Nat)

theorem lineStyle_bg (index : Nat) : (scene.lineStyle index).bg =
    if scene.view.isPinned index then scene.view.theme.palette.highlight else scene.view.theme.palette.background := by
  unfold Scene.lineStyle
  split <;> rfl

theorem marks_reversedRow (row cols : Nat) (text : List Char) :
    Marks scene.view.theme.palette.highlight (reversedRow row cols text) [] :=
  fun _ => List.filter_cons_of_neg fun h => scene.view.theme.inherited_ne_highlight (of_decide_eq_true h)

theorem marks_noticeRow (notice : Option Notice) :
    Marks scene.view.theme.palette.highlight (noticeRow layout notice) [] := by
  intro pen
  -- neither the hint nor a notice of either kind has a background
  rcases notice with _ | ⟨_ | _, message⟩ <;>
    exact List.filter_cons_of_neg fun h => scene.view.theme.inherited_ne_highlight (of_decide_eq_true h)

theorem marks_placeCursor : Marks scene.view.theme.palette.highlight (placeCursor scene layout tabWidth) [] := by
  intro pen
  unfold placeCursor
  simp only
  split <;> rfl

/-- A row of the panes that is not for the pinned line. -/
theorem marks_paneRow_of_not_pinned [Engine] {row : Nat} (h : scene.view.pinned ≠ some (scene.topLine + row)) :
    Marks scene.view.theme.palette.highlight (paneRow scene layout tabWidth row) [] := by
  have hbg := lineStyle_bg scene (scene.topLine + row)
  rw [if_neg (by simpa [View.isPinned] using h)] at hbg
  have hright := paintsOn_rightPane scene layout tabWidth (scene.topLine + row)
    scene.view.lines[scene.topLine + row]?
  rw [hbg] at hright
  have hleft := (paintsOn_leftPane scene layout tabWidth scene.view.lines[scene.topLine + row]?).append
    (paintsOn_separator scene layout)
  exact (Marks.of_paintsOn (hleft.append hright) scene.view.theme.background_ne_highlight).move _ 0

/-- The row of the pinned line. -/
theorem exists_marks_paneRow [Engine] {row : Nat} (h : scene.view.pinned = some (scene.topLine + row)) :
    ∃ pieces : List (List Char), Marks scene.view.theme.palette.highlight (paneRow scene layout tabWidth row)
      (pieces.map (⟨layout.paneTop + row, scene.view.theme.palette.highlight, ·⟩)) ∧
      pieces.flatten = rightText scene layout tabWidth (scene.topLine + row)
        scene.view.lines[scene.topLine + row]? := by
  have hbg := lineStyle_bg scene (scene.topLine + row)
  rw [if_pos (by simpa [View.isPinned] using h)] at hbg
  have hright := paintsOn_rightPane scene layout tabWidth (scene.topLine + row)
    scene.view.lines[scene.topLine + row]?
  rw [hbg] at hright
  have hleft := (paintsOn_leftPane scene layout tabWidth scene.view.lines[scene.topLine + row]?).append
    (paintsOn_separator scene layout)
  exact hright.exists_marks hleft scene.view.theme.background_ne_highlight (layout.paneTop + row) 0

/-- What a frame writes on the background of the pinned line is what its panes write there. -/
theorem marks_draw_of_panes [Engine] (display : Display) {marked : List Ink}
    (h : Marks scene.view.theme.palette.highlight
      ((List.range layout.paneHeight).flatMap (paneRow scene layout display.tabWidth)) marked) :
    Marks scene.view.theme.palette.highlight (draw scene layout display) marked := by
  have hbefore : Marks scene.view.theme.palette.highlight (.hideCursor :: if display.pending then [.clear] else []) []
      := by
    intro pen
    split <;> rfl
  have hdraw := (((((hbefore.append (marks_reversedRow scene 0 layout.cols (titleText scene))).append h).append
    (marks_reversedRow scene layout.statsRow layout.cols (statsText scene.view.stats))).append
    (marks_noticeRow scene layout scene.view.notice)).append (marks_placeCursor scene layout display.tabWidth))
  rw [List.append_nil, List.append_nil, List.append_nil, List.nil_append, List.nil_append] at hdraw
  exact hdraw

/-- **A frame uses the background of the pinned line in one row**, that of the pinned line, for the whole highlighted
pane. -/
theorem exists_marks_draw [Engine] (display : Display) {line : Nat} (hpinned : scene.view.pinned = some line)
    (htop : scene.topLine ≤ line) (hheight : line < scene.topLine + layout.paneHeight) :
    ∃ pieces : List (List Char), Marks scene.view.theme.palette.highlight (draw scene layout display)
      (pieces.map (⟨layout.paneTop + (line - scene.topLine), scene.view.theme.palette.highlight, ·⟩)) ∧
      pieces.flatten = rightText scene layout display.tabWidth line scene.view.lines[line]? := by
  obtain ⟨row, rfl⟩ := Nat.exists_eq_add_of_le htop
  obtain ⟨pieces, hmarks, htext⟩ := exists_marks_paneRow scene layout display.tabWidth hpinned
  rw [Nat.add_sub_cancel_left]
  refine ⟨pieces, marks_draw_of_panes scene layout display ?_, htext⟩
  have hpanes := Marks.flatMap (l := List.range layout.paneHeight) fun other _ =>
    show Marks scene.view.theme.palette.highlight (paneRow scene layout display.tabWidth other)
      (if other = row then pieces.map (⟨layout.paneTop + row, scene.view.theme.palette.highlight, ·⟩) else []) by
    split
    · rename_i hrow
      rwa [hrow]
    · rename_i hrow
      refine marks_paneRow_of_not_pinned scene layout display.tabWidth fun h => hrow ?_
      have := Option.some.inj (hpinned.symm.trans h)
      omega
  rwa [flatMap_range_ite, if_pos (by omega)] at hpanes

/-- **Without a pinned line in its window** a frame does not use that background. -/
theorem marks_draw_of_not_pinned [Engine] (display : Display) (h : ∀ line, scene.view.pinned = some line →
      ¬ (scene.topLine ≤ line ∧ line < scene.topLine + layout.paneHeight)) :
    Marks scene.view.theme.palette.highlight (draw scene layout display) [] := by
  refine marks_draw_of_panes scene layout display ?_
  have hpanes := Marks.flatMap (g := fun _ => []) fun row (hrow : row ∈ List.range layout.paneHeight) =>
    marks_paneRow_of_not_pinned scene layout display.tabWidth fun hpinned =>
      h _ hpinned ⟨Nat.le_add_right _ _, Nat.add_lt_add_left (List.mem_range.1 hrow) _⟩
  rwa [List.flatMap_eq_nil_iff.2 fun _ _ => rfl] at hpanes

end Frame
end JsxView

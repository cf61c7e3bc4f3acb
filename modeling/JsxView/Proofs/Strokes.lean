import JsxView.Frame
import JsxView.Proofs.CellColumns
/-!
# Strokes — a frame read as text at places

To a terminal a frame is moves of the cursor and text written from where the cursor is.  Read so it is a list of
strokes, each with the place it begins at and all the text up to the next move (`strokes`); styles do not matter.  The
strokes of a frame are the title, one for each row of the panes, the statistics and the notice, and then the move that
places the cursor, which is shown only there (`exists_draw_eq`).
-/
namespace JsxView

/-- Text written from one place of the screen on, up to the next move of the cursor. -/
structure Stroke where
  row : Nat
  col : Nat
  text : List Char
  deriving DecidableEq, Repr

/-- What operations write before they move the cursor. -/
def leadText : List ScreenOp → List Char
  | [] => []
  | .moveTo _ _ :: _ => []
  | .write text :: ops => text ++ leadText ops
  | _ :: ops => leadText ops

/-- **The strokes of operations**, one from each move of the cursor on. -/
def strokes : List ScreenOp → List Stroke
  | [] => []
  | .moveTo row col :: ops => ⟨row, col, leadText ops⟩ :: strokes ops
  | _ :: ops => strokes ops

/-- The strokes that write something. -/
def written (ops : List ScreenOp) : List Stroke :=
  (strokes ops).filter fun stroke => !stroke.text.isEmpty

theorem exists_stroke_of_move {row col : Nat} : ∀ {ops : List ScreenOp}, ScreenOp.moveTo row col ∈ ops →
    ∃ stroke ∈ strokes ops, stroke.row = row ∧ stroke.col = col
  | [], h => by cases h
  | op :: ops, h => by
    rcases List.mem_cons.1 h with rfl | h
    · exact ⟨_, List.mem_cons_self, rfl, rfl⟩
    · obtain ⟨stroke, hstroke, hplace⟩ := exists_stroke_of_move h
      cases op with
      | moveTo row' col' => exact ⟨stroke, List.mem_cons_of_mem _ hstroke, hplace⟩
      | _ => exact ⟨stroke, hstroke, hplace⟩

/-- **Operations that write a text where the cursor is**, and neither move nor show it. -/
structure Writes (ops : List ScreenOp) (text : List Char) : Prop where
  leadText_append : ∀ rest, leadText (ops ++ rest) = text ++ leadText rest
  strokes_append : ∀ rest, strokes (ops ++ rest) = strokes rest
  not_shown : ScreenOp.showCursor ∉ ops

/-- **Operations that draw strokes**, write nothing where the cursor happened to be, and do not show it. -/
structure Draws (ops : List ScreenOp) (drawn : List Stroke) : Prop where
  leadText_append : ∀ rest, leadText rest = [] → leadText (ops ++ rest) = []
  strokes_append : ∀ rest, leadText rest = [] → strokes (ops ++ rest) = drawn ++ strokes rest
  not_shown : ScreenOp.showCursor ∉ ops

namespace Writes

variable {a b : List ScreenOp} {s t : List Char}

theorem nil : Writes [] [] :=
  ⟨fun _ => rfl, fun _ => rfl, List.not_mem_nil⟩

theorem append (ha : Writes a s) (hb : Writes b t) : Writes (a ++ b) (s ++ t) where
  leadText_append rest := by
    rw [List.append_assoc, ha.leadText_append, hb.leadText_append, List.append_assoc]
  strokes_append rest := by
    rw [List.append_assoc, ha.strokes_append, hb.strokes_append]
  not_shown := List.not_mem_append ha.not_shown hb.not_shown

theorem flatMap {α : Type} {f : α → List ScreenOp} {g : α → List Char} : ∀ {l : List α},
    (∀ x ∈ l, Writes (f x) (g x)) → Writes (l.flatMap f) (l.flatMap g)
  | [], _ => nil
  | x :: l, h => by
    rw [List.flatMap_cons, List.flatMap_cons]
    exact (h x List.mem_cons_self).append (flatMap fun y hy => h y (List.mem_cons_of_mem _ hy))

end Writes

namespace Draws

variable {a b : List ScreenOp} {s t : List Stroke}

theorem append (ha : Draws a s) (hb : Draws b t) : Draws (a ++ b) (s ++ t) where
  leadText_append rest hrest := by
    rw [List.append_assoc]
    exact ha.leadText_append _ (hb.leadText_append rest hrest)
  strokes_append rest hrest := by
    rw [List.append_assoc, ha.strokes_append _ (hb.leadText_append rest hrest), hb.strokes_append rest hrest,
      List.append_assoc]
  not_shown := List.not_mem_append ha.not_shown hb.not_shown

theorem of_writes (h : Writes a []) : Draws a [] where
  leadText_append rest hrest := (h.leadText_append rest).trans hrest
  strokes_append rest _ := h.strokes_append rest
  not_shown := h.not_shown

theorem flatMap {α : Type} {f : α → List ScreenOp} {g : α → Stroke} : ∀ {l : List α},
    (∀ x ∈ l, Draws (f x) [g x]) → Draws (l.flatMap f) (l.map g)
  | [], _ => of_writes Writes.nil
  | x :: l, h => by
    rw [List.flatMap_cons, List.map_cons]
    exact (h x List.mem_cons_self).append (flatMap fun y hy => h y (List.mem_cons_of_mem _ hy))

/-- A move with text written behind it is one stroke. -/
theorem stroke {ops : List ScreenOp} {text : List Char} (h : Writes ops text) (row col : Nat) :
    Draws (.moveTo row col :: ops) [⟨row, col, text⟩] where
  leadText_append _ _ := rfl
  strokes_append rest hrest := by
    show ⟨row, col, leadText (ops ++ rest)⟩ :: strokes (ops ++ rest) = _
    rw [h.leadText_append, h.strokes_append, hrest, List.append_nil]
    rfl
  not_shown := List.not_mem_cons_of_ne_of_not_mem nofun h.not_shown

end Draws

/-! ## Styles and text -/

theorem writes_text (text : List Char) : Writes [.write text] text :=
  ⟨fun _ => rfl, fun _ => rfl, by simp⟩

theorem writes_resetStyle : Writes [.resetStyle] [] :=
  ⟨fun _ => rfl, fun _ => rfl, by simp⟩

theorem writes_ops (style : Style) : Writes style.ops [] := by
  obtain ⟨fg, bg, bold, italic⟩ := style
  cases fg <;> cases bg <;> cases bold <;> cases italic <;> exact ⟨fun _ => rfl, fun _ => rfl, by simp [Style.ops]⟩

theorem writes_writeStyled (style : Style) (text : List Char) : Writes (writeStyled style text) text :=
  (writes_resetStyle.append (writes_ops style)).append (writes_text text)

namespace Frame

theorem draws_reversedRow (row cols : Nat) (text : List Char) :
    Draws (reversedRow row cols text) [⟨row, 0, fitToWidth text cols⟩] := by
  have hbefore : Writes [.resetStyle, .reverse] [] := ⟨fun _ => rfl, fun _ => rfl, by simp⟩
  have h := (hbefore.append (writes_text (fitToWidth text cols))).append writes_resetStyle
  rw [List.nil_append, List.append_nil] at h
  exact Draws.stroke h row 0

theorem draws_noticeRow (layout : Layout) (notice : Option Notice) : Draws (noticeRow layout notice)
    [⟨layout.noticeRow, 0, fitToWidth (notice.elim keyHint Notice.message) layout.cols⟩] := by
  have hstyle : Writes (notice.elim [] fun n => n.kind.style.ops) [] := by
    cases notice with
    | none => exact Writes.nil
    | some n => exact writes_ops _
  have htext := writes_text (fitToWidth (notice.elim keyHint Notice.message) layout.cols)
  have h := ((writes_resetStyle.append hstyle).append htext).append writes_resetStyle
  rw [List.append_nil, List.append_nil, List.nil_append] at h
  have hrow := Draws.stroke h layout.noticeRow 0
  simpa only [noticeRow, List.cons_append, List.nil_append, List.append_assoc] using hrow

/-! ## Panes

The text of each part of a row, beside the operations that write it. -/

theorem writes_drawRuns (runs : List Run) : Writes (drawRuns runs) (runsText runs) :=
  Writes.flatMap fun run _ => writes_writeStyled run.style run.text

theorem writes_fill (style : Style) (width : Nat) : Writes (fill style width) (spaces width) := by
  unfold fill
  split
  · rename_i hwidth
    subst hwidth
    exact Writes.nil
  · exact writes_writeStyled style (spaces width)

def paneText (line : Option (List Char)) (skip width tabWidth : Nat) : List Char :=
  match line with
  | some text =>
    let cells := window skip width (cellsOf tabWidth text)
    cells.flatMap Cell.text ++ spaces (width - cellsWidth cells)
  | none => spaces width

theorem writes_drawPane (line : Option (List Char)) (spans : List Span) (style : Style) (skip width tabWidth : Nat) :
    Writes (drawPane line spans style skip width tabWidth) (paneText line skip width tabWidth) := by
  cases line with
  | none => exact writes_fill style width
  | some text =>
    have hruns := writes_drawRuns (styledRuns text spans style skip width tabWidth).1
    rw [runsText_styledRuns] at hruns
    exact hruns.append (writes_fill style _)

/-- **A pane is filled to its width.** -/
theorem textWidth_paneText (line : Option (List Char)) (skip width tabWidth : Nat) :
    textWidth (paneText line skip width tabWidth) = width := by
  cases line with
  | none => exact textWidth_spaces width
  | some text =>
    have hwidth := textWidth_styledRuns text [] {} skip width tabWidth
    have hle := styledRuns_le text [] {} skip width tabWidth
    rw [runsText_styledRuns] at hwidth
    show textWidth (_ ++ spaces (width - (styledRuns text [] {} skip width tabWidth).2)) = width
    rw [textWidth_append, textWidth_spaces, hwidth]
    omega

def numberText (index width : Nat) : List Char :=
  if width = 0 then [] else gutterText index width

theorem writes_lineNumber (scene : Scene) (index width : Nat) :
    Writes (lineNumber scene index width) (numberText index width) := by
  unfold lineNumber numberText
  split
  · exact Writes.nil
  · exact writes_writeStyled _ _

variable (scene : Scene) (layout : Layout) (tabWidth : Nat)

def leftText (line : Option (List Char)) : List Char :=
  paneText line scene.leftCol layout.leftWidth tabWidth

def rightText (index : Nat) (line : Option (List Char)) : List Char :=
  match line with
  | some text =>
    numberText index (gutter scene layout)
      ++ paneText (some text) 0 (layout.rightWidth - gutter scene layout) tabWidth
  | none => paneText none 0 layout.rightWidth tabWidth

def separatorText : List Char :=
  if layout.leftWidth < layout.rightStart then ['│'] else []

def rowText (row : Nat) : List Char :=
  let line := scene.view.lines[scene.topLine + row]?
  leftText scene layout tabWidth line ++ separatorText layout
    ++ rightText scene layout tabWidth (scene.topLine + row) line

theorem writes_leftPane (line : Option (List Char)) :
    Writes (leftPane scene layout tabWidth line) (leftText scene layout tabWidth line) :=
  writes_drawPane line [] scene.base scene.leftCol layout.leftWidth tabWidth

theorem writes_rightPane [Engine] (index : Nat) (line : Option (List Char)) :
    Writes (rightPane scene layout tabWidth index line) (rightText scene layout tabWidth index line) := by
  cases line with
  | none => exact writes_drawPane none [] _ 0 layout.rightWidth tabWidth
  | some text => exact (writes_lineNumber scene index _).append (writes_drawPane (some text) _ _ 0 _ tabWidth)

theorem writes_separator : Writes (separator scene layout) (separatorText layout) := by
  unfold separator separatorText
  split
  · exact writes_writeStyled _ _
  · exact Writes.nil

theorem draws_paneRow [Engine] (row : Nat) : Draws (paneRow scene layout tabWidth row)
    [⟨layout.paneTop + row, 0, rowText scene layout tabWidth row⟩] := by
  let line := scene.view.lines[scene.topLine + row]?
  have hleft := writes_leftPane scene layout tabWidth line
  have hright := writes_rightPane scene layout tabWidth (scene.topLine + row) line
  exact Draws.stroke ((hleft.append (writes_separator scene layout)).append hright) (layout.paneTop + row) 0

/-! ## The frame -/

/-- The strokes of the rows of a frame. -/
def rowStrokes : List Stroke :=
  ⟨0, 0, fitToWidth (titleText scene) layout.cols⟩
    :: (List.range layout.paneHeight).map
      (fun row => ⟨layout.paneTop + row, 0, rowText scene layout tabWidth row⟩)
    ++ [⟨layout.statsRow, 0, fitToWidth (statsText scene.view.stats) layout.cols⟩,
      ⟨layout.noticeRow, 0, fitToWidth (scene.view.notice.elim keyHint Notice.message) layout.cols⟩]

/-- **A frame draws its rows from the top to the bottom**, and then places the cursor. -/
theorem exists_draw_eq [Engine] (display : Display) : ∃ ops,
    draw scene layout display = ops ++ placeCursor scene layout display.tabWidth ∧
      Draws ops (rowStrokes scene layout display.tabWidth) := by
  have hhide : Draws [.hideCursor] [] := .of_writes ⟨fun _ => rfl, fun _ => rfl, by simp⟩
  have hclear : Draws (if display.pending then [.clear] else []) [] := by
    split
    · exact .of_writes ⟨fun _ => rfl, fun _ => rfl, by simp⟩
    · exact .of_writes .nil
  have htitle := draws_reversedRow 0 layout.cols (titleText scene)
  have hpanes : Draws ((List.range layout.paneHeight).flatMap (paneRow scene layout display.tabWidth)) _ :=
    .flatMap fun row _ => draws_paneRow scene layout display.tabWidth row
  have hstats := draws_reversedRow layout.statsRow layout.cols (statsText scene.view.stats)
  have hnotice := draws_noticeRow layout scene.view.notice
  have h := ((((hhide.append hclear).append htitle).append hpanes).append hstats).append hnotice
  refine ⟨_, rfl, ?_⟩
  simpa only [rowStrokes, List.cons_append, List.nil_append, List.append_assoc] using h

theorem leadText_placeCursor : leadText (placeCursor scene layout tabWidth) = [] := by
  unfold placeCursor
  simp only
  split <;> rfl

theorem leadText_draw [Engine] (display : Display) : leadText (draw scene layout display) = [] := by
  obtain ⟨ops, hops, hrows⟩ := exists_draw_eq scene layout display
  rw [hops, hrows.leadText_append _ (leadText_placeCursor scene layout _)]

theorem strokes_draw [Engine] (display : Display) : strokes (draw scene layout display) =
    rowStrokes scene layout display.tabWidth ++ strokes (placeCursor scene layout display.tabWidth) := by
  obtain ⟨ops, hops, hrows⟩ := exists_draw_eq scene layout display
  rw [hops, hrows.strokes_append _ (leadText_placeCursor scene layout _)]

end Frame
end JsxView

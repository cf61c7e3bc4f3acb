import JsxView.Proofs.CursorCell
import JsxView.Proofs.Ink
/-!
# ClickedLine — a click pins the line under it

Which line a row shows is worked out twice: a frame goes through the rows of the panes and draws the line of each, and
a click looks up the line of its cell.  Both agree on every screen with room for the panes (`Frame.showsAt_iff`): the
click finds a line just where the frame shows that line in the highlighted pane.  In a run the window shows the cursor
before a click and the click moves neither, so all that it changes is the pin (`handle_click`).

The pin of a run names a line that exists, so where its background is used an existing line is shown.
-/
namespace JsxView

theorem Layout.lineAt_eq_some {layout : Layout} {row col topLine lineCount line : Nat} :
    layout.lineAt row col topLine lineCount = some line ↔
      (layout.rightStart ≤ col ∧ layout.paneTop ≤ row ∧ row - layout.paneTop < layout.paneHeight ∧
        topLine + (row - layout.paneTop) < lineCount) ∧ topLine + (row - layout.paneTop) = line := by
  unfold Layout.lineAt
  simp only
  split
  · rename_i hin
    exact ⟨fun h => ⟨hin, Option.some.inj h⟩, fun h => congrArg some h.2⟩
  · rename_i hout
    exact ⟨nofun, fun h => absurd h.1 hout⟩

/-! ## What a frame shows at a cell -/

namespace Frame

/-- **A frame shows a line at a cell of the highlighted pane**: the line is in the window, as far below its first line
as the cell is below the first row of the panes; in that row the frame writes both panes of the line; and the cell is
behind the raw pane and the separator, in the number of the line or its text. -/
structure ShowsAt [Engine] (scene : Scene) (layout : Layout) (tabWidth : Nat) (frame : List ScreenOp)
    (row col line : Nat) : Prop where
  inWindow : scene.topLine ≤ line ∧ line < scene.topLine + layout.paneHeight
  place : row = layout.paneTop + (line - scene.topLine)
  isLine : line < scene.view.lineCount
  drawn : ∃ parts : PaneRow scene layout tabWidth line, ⟨row, 0, parts.text⟩ ∈ written frame ∧
    textWidth (parts.left ++ ['│']) ≤ col ∧ col < textWidth parts.text

variable (scene : Scene) {cols rows : Nat}

/-- The highlighted pane of a row begins where the layout has it and ends with the screen. -/
theorem PaneRow.cells [Engine] {tabWidth index : Nat} (hcols : 3 ≤ cols)
    (parts : PaneRow scene (Layout.compute cols rows) tabWidth index) :
    textWidth (parts.left ++ ['│']) = (Layout.compute cols rows).rightStart ∧ textWidth parts.text = cols := by
  have hleft : textWidth (parts.left ++ ['│']) = (Layout.compute cols rows).leftWidth + 1 := by
    rw [textWidth_append, parts.leftWidth, textWidth_separator]
  have hstart : (Layout.compute cols rows).rightStart = (Layout.compute cols rows).leftWidth + 1 := by
    show min (cols / 2 + 1) cols = cols / 2 + 1
    omega
  refine ⟨hleft.trans hstart.symm, ?_⟩
  rw [PaneRow.text, textWidth_append, hleft, parts.rightWidth, Layout.leftWidth_add_rightWidth (by omega) rows]

/-- **A click finds the line that the frame shows at its cell**, and none where the frame shows none. -/
theorem showsAt_iff [Engine] (hcols : 3 ≤ cols) (hrows : 4 ≤ rows) (display : Display) {row col line : Nat}
    (hcol : col < cols) :
    ShowsAt scene (Layout.compute cols rows) display.tabWidth (draw scene (Layout.compute cols rows) display)
        row col line ↔
      (Layout.compute cols rows).lineAt row col scene.topLine scene.view.lineCount = some line := by
  rw [Layout.lineAt_eq_some]
  have htop : (Layout.compute cols rows).paneTop = 1 := rfl
  have hheight : (Layout.compute cols rows).paneHeight = rows - 3 := rfl
  constructor
  · rintro ⟨⟨htopLine, hline⟩, hplace, hcount, parts, -, hbehind, -⟩
    rw [(PaneRow.cells scene hcols parts).1] at hbehind
    exact ⟨⟨hbehind, by omega, by omega, by omega⟩, by omega⟩
  · rintro ⟨⟨hstart, hpanes, hrow, hcount⟩, rfl⟩
    rw [htop] at hpanes hrow hcount ⊢
    obtain ⟨row, rfl⟩ := Nat.exists_eq_add_of_le hpanes
    rw [Nat.add_sub_cancel_left] at hrow hcount ⊢
    obtain ⟨parts, hdrawn⟩ := exists_drawn scene hcols hrows display hrow
    obtain ⟨hbegin, hend⟩ := PaneRow.cells scene hcols parts
    exact ⟨⟨by omega, by omega⟩, by omega, hcount, parts, hdrawn, by omega, by omega⟩

end Frame

/-! ## What a click does -/

namespace Session

variable {s : Session} {layout : Layout}

/-- The session with the pin of a line set, or taken away if it was there. -/
def togglePin (s : Session) (line : Nat) : Session :=
  { s with view := { s.view with pinned := if s.view.pinned = some line then none else some line } }

theorem togglePin_ne_self (s : Session) (line : Nat) : s.togglePin line ≠ s := by
  intro h
  have hpin : (if s.view.pinned = some line then none else some line) = s.view.pinned :=
    congrArg (fun s : Session => s.view.pinned) h
  split at hpin
  · rename_i hwas
    rw [hwas] at hpin
    cases hpin
  · rename_i hwas
    exact hwas hpin.symm

theorem togglePin_injective {s : Session} {line other : Nat} (h : s.togglePin line = s.togglePin other) :
    line = other := by
  have hpin : (if s.view.pinned = some line then none else some line) =
      if s.view.pinned = some other then none else some other :=
    congrArg (fun s : Session => s.view.pinned) h
  split at hpin <;> split at hpin
  · rename_i hline hother
    exact Option.some.inj (hline.symm.trans hother)
  · cases hpin
  · cases hpin
  · exact Option.some.inj hpin

/-- **A click in view changes the pin at most**: that of the line it finds. -/
theorem handle_click (h : s.InWindow layout) (reply : Reply) (row col : Nat) :
    s.handle reply layout (.click row col) =
      (((layout.lineAt row col s.topLine s.view.lineCount).elim s s.togglePin), true) := by
  show ((s.update reply layout (.click row col)).scroll layout, true) = _
  rw [update]
  cases layout.lineAt row col s.topLine s.view.lineCount with
  | none => exact congrArg (·, true) (scroll_of_inWindow h)
  | some line =>
    have hpinned : (s.togglePin line).InWindow layout := ⟨h.topLine, h.line, h.leftCol, h.col⟩
    exact congrArg (·, true) (scroll_of_inWindow hpinned)

end Session

namespace Interaction

variable {run : Interaction}

/-- A frame of a run shows a line at a cell of the highlighted pane. -/
def ShowsAt [Engine] (run : Interaction) (row col line : Nat) : Prop :=
  Frame.ShowsAt run.session.scene run.layout run.display.tabWidth run.draw.1 row col line

/-- What a frame of a run writes on the background of the pinned line. -/
def highlighted [Engine] (run : Interaction) : List Ink :=
  (inksFrom ⟨0, .inherited⟩ run.draw.1).filter (·.bg = run.session.view.theme.palette.highlight)

theorem showsAt_iff_lineAt [Engine] (hcols : 3 ≤ run.cols) (hrows : 4 ≤ run.rows) {row col line : Nat}
    (hcol : col < run.cols) :
    run.ShowsAt row col line ↔
      run.layout.lineAt row col run.session.topLine run.session.view.lineCount = some line := by
  unfold ShowsAt
  rw [draw_eq_frame hcols hrows]
  exact Frame.showsAt_iff run.session.scene hcols hrows run.display hcol

/-- **A click between two frames** toggles the pin of the line that the frame before it shows at its cell, and does
nothing where that frame shows none. -/
theorem InView.click [Engine] (h : run.InView) (hcols : 3 ≤ run.cols) (hrows : 4 ≤ run.rows) {row col : Nat}
    (hcol : col < run.cols) (reply : Reply) :
    let clicked := (run.draw.2.resized (.leftClick row col)).handle reply (Event.leftClick row col).command
    (∀ line, clicked.1.session = run.session.togglePin line ↔ run.ShowsAt row col line) ∧
    ((∀ line, ¬ run.ShowsAt row col line) → clicked.1.session = run.session) ∧
    clicked = ({ run.draw.2 with session := clicked.1.session }, true) := by
  intro clicked
  have hclicked : clicked = ({ run.draw.2 with
      session := (run.layout.lineAt row col run.session.topLine run.session.view.lineCount).elim run.session
        run.session.togglePin }, true) := by
    show ({ run.draw.2 with session := (run.session.handle reply run.layout (.click row col)).1 },
      (run.session.handle reply run.layout (.click row col)).2) = _
    rw [Session.handle_click h.inWindow]
  have hfound : ∀ line, run.ShowsAt row col line ↔ _ := fun line => showsAt_iff_lineAt hcols hrows hcol
  generalize run.layout.lineAt row col run.session.topLine run.session.view.lineCount = found at hclicked hfound
  rw [hclicked]
  refine ⟨fun line => ?_, fun hnone => ?_, rfl⟩
  · rw [hfound]
    cases found with
    | none => exact ⟨fun hself => absurd hself.symm (Session.togglePin_ne_self _ line), nofun⟩
    | some other =>
      exact ⟨fun htoggle => congrArg some (Session.togglePin_injective htoggle),
        fun hline => congrArg run.session.togglePin (Option.some.inj hline)⟩
  · cases found with
    | none => rfl
    | some other => exact absurd ((hfound other).2 rfl) (hnone other)

/-- **A pinned line in the window has its background to itself**, over the whole highlighted pane. -/
theorem InView.highlighted_of_pinned [Engine] (h : run.InView) (hcols : 3 ≤ run.cols) (hrows : 4 ≤ run.rows) {line : Nat}
    (hpinned : run.session.view.pinned = some line) (htop : run.session.topLine ≤ line)
    (hheight : line < run.session.topLine + run.layout.paneHeight) :
    (∀ ink ∈ run.highlighted, ink.row = 1 + (line - run.session.topLine)) ∧
    textWidth (run.highlighted.flatMap Ink.text) = run.layout.rightWidth ∧ 0 < run.layout.rightWidth ∧
    line < run.session.view.lineCount ∧
    ∀ col, run.layout.rightStart ≤ col → col < run.cols →
      run.ShowsAt (1 + (line - run.session.topLine)) col line := by
  obtain ⟨pieces, hmarks, htext⟩ :=
    Frame.exists_marks_draw run.session.scene run.layout run.display hpinned htop hheight
  have hhighlighted : run.highlighted = pieces.map
      (⟨1 + (line - run.session.topLine), run.session.view.theme.palette.highlight, ·⟩) := by
    rw [highlighted, draw_eq_frame hcols hrows]
    exact hmarks _
  have hline : line < run.session.view.lineCount := h.inPlace.pinned line hpinned
  obtain ⟨number, right, hright, hwidth, -⟩ :=
    Frame.exists_rightText run.session.scene run.layout run.display.tabWidth line
  refine ⟨?_, ?_, ?_, hline, fun col hstart hcol => ?_⟩
  · intro ink hink
    rw [hhighlighted] at hink
    obtain ⟨piece, -, rfl⟩ := List.mem_map.1 hink
    rfl
  · have hjoined : run.highlighted.flatMap Ink.text = pieces.flatten := by
      rw [hhighlighted, List.flatMap_map, List.flatten_eq_flatMap]
      rfl
    rw [hjoined, htext]
    exact hright ▸ hwidth
  · show 0 < run.cols - min (run.cols / 2 + 1) run.cols
    omega
  · rw [showsAt_iff_lineAt hcols hrows hcol, Layout.lineAt_eq_some]
    have hpaneTop : run.layout.paneTop = 1 := rfl
    exact ⟨⟨hstart, by omega, by omega, by omega⟩, by omega⟩

theorem highlighted_of_not_pinned [Engine] (hcols : 3 ≤ run.cols) (hrows : 4 ≤ run.rows)
    (h : ∀ line, run.session.view.pinned = some line →
      ¬ (run.session.topLine ≤ line ∧ line < run.session.topLine + run.layout.paneHeight)) : run.highlighted = [] := by
  rw [highlighted, draw_eq_frame hcols hrows]
  exact Frame.marks_draw_of_not_pinned run.session.scene run.layout run.display h _

/-- **Clicks and frames agree on the lines, and the pin is where it shows.**  However a run got there: a left click on
a cell of the screen toggles the pin of a line exactly if the frame before it shows that line at that cell of the
highlighted pane, any other click changes nothing, and no click changes anything but the pin.  A frame uses the
background of the pinned line in one row if that line is in the window: in the row that shows it, over the whole
highlighted pane; and nowhere if it is not. -/
theorem click_pins_shown_line [Engine] (text : List Char) (config : Config) (cols rows : Nat)
    (hrun : Reached (start (Session.start text config) cols rows) run) :
    (3 ≤ run.cols ∧ 4 ≤ run.rows →
      (∀ row col reply, row < run.rows → col < run.cols →
        let clicked := (run.draw.2.resized (.leftClick row col)).handle reply (Event.leftClick row col).command
        (∀ line, clicked.1.session = run.session.togglePin line ↔ run.ShowsAt row col line) ∧
        ((∀ line, ¬ run.ShowsAt row col line) → clicked.1.session = run.session) ∧
        clicked = ({ run.draw.2 with session := clicked.1.session }, true)) ∧
      (∀ line, run.session.view.pinned = some line → run.session.topLine ≤ line →
        line < run.session.topLine + run.layout.paneHeight →
        (∀ ink ∈ run.highlighted, ink.row = 1 + (line - run.session.topLine)) ∧
        textWidth (run.highlighted.flatMap Ink.text) = run.layout.rightWidth ∧ 0 < run.layout.rightWidth ∧
        line < run.session.view.lineCount ∧
        ∀ col, run.layout.rightStart ≤ col → col < run.cols →
          run.ShowsAt (1 + (line - run.session.topLine)) col line) ∧
      ((∀ line, run.session.view.pinned = some line →
        ¬ (run.session.topLine ≤ line ∧ line < run.session.topLine + run.layout.paneHeight)) →
        run.highlighted = [])) ∧
    (run.cols < 3 ∨ run.rows < 4 → run.draw.1 = []) := by
  have hview := inView_of_reached (inView_start text config cols rows) hrun
  constructor
  · rintro ⟨hcols, hrows⟩
    exact ⟨fun row col reply _ hcol => hview.click hcols hrows hcol reply,
      fun line => hview.highlighted_of_pinned hcols hrows, highlighted_of_not_pinned hcols hrows⟩
  · intro hsmall
    have hpanes : ¬ run.layout.hasPanes = true := fun h => by
      have := (Layout.hasPanes_compute run.cols run.rows).1 h
      omega
    exact congrArg Prod.fst
      (show run.display.render run.session.scene run.cols run.rows = ([], run.display) from if_neg hpanes)

/-- Three lines on a screen with two rows for them, scrolled to the last one, after a click on the lower row. -/
def clickedBelow : Interaction :=
  letI := Engine.backtracking
  let scrolled := ((start (Session.start "a\n\nc".toList {}) 9 5).draw.2.handle none .pageDown).1
  (scrolled.draw.2.handle none (.click 2 8)).1

/-- The click pins the last line, which is shown on its background; one on the upper row moves the pin there, and one
on the separator does nothing. -/
theorem click_pins_shown_line_scrolled :
    letI := Engine.backtracking
    clickedBelow.session.view.pinned = some 2 ∧ clickedBelow.session.topLine = 1 ∧
    (∀ ink ∈ clickedBelow.highlighted, ink.row = 2) ∧ clickedBelow.ShowsAt 2 8 2 ∧
    (clickedBelow.draw.2.handle none (.click 1 5)).1.session = clickedBelow.session.togglePin 1 ∧
    (clickedBelow.draw.2.handle none (.click 1 4)).1.session = clickedBelow.session := by
  let := Engine.backtracking
  have hrun : Reached (start (Session.start "a\n\nc".toList {}) 9 5) clickedBelow :=
    (Reached.start.command none .pageDown rfl).command none (.click 2 8) rfl
  have hpinned : clickedBelow.session.view.pinned = some 2 := by decide +kernel
  have htop : clickedBelow.session.topLine = 1 := by decide +kernel
  obtain ⟨hclicks, hpin, -⟩ := (click_pins_shown_line _ _ _ _ hrun).1 (by decide)
  obtain ⟨hrows, -, -, -, hshown⟩ := hpin 2 hpinned (by decide +kernel) (by decide +kernel)
  rw [htop] at hrows hshown
  refine ⟨hpinned, htop, hrows, hshown 8 (by decide) (by decide), ?_, ?_⟩
  · refine ((hclicks 1 5 none (by decide) (by decide)).1 1).2 ?_
    exact (showsAt_iff_lineAt (by decide) (by decide) (by decide)).2 (by decide +kernel)
  · refine (hclicks 1 4 none (by decide) (by decide)).2.1 fun line h => ?_
    have hnone : clickedBelow.layout.lineAt 1 4 clickedBelow.session.topLine clickedBelow.session.view.lineCount =
        none := by
      decide +kernel
    rw [showsAt_iff_lineAt (by decide) (by decide) (by decide), hnone] at h
    cases h

end Interaction
end JsxView

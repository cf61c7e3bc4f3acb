import JsxView.Backtracking
import JsxView.Proofs.FrameFill
import JsxView.Proofs.SessionInvariant
import JsxView.Session.Outside
/-!
# CursorCell — the cursor stands behind what is before it

A run draws a frame, handles a command and draws the next frame; where the size of the screen changes, the command is a
redraw, handled on the new screen (`Reached`).  Behind every command the window shows the cursor on the screen that the
next frame is drawn on, and the tab stops of the frame are those of the session (`InView`, `inView_of_reached`).

Where the cursor is in its line is computed twice: the scroll and the place of the cursor count the columns before it,
while the frame lays out the whole line and cuts the window out of it.  In view, both agree: the text before the cursor
is drawn in exactly the columns to the left of the cursor (`cursor_in_its_cell`).
-/
namespace JsxView

/-! ## Where a frame shows the cursor -/

namespace Frame

variable (scene : Scene) (layout : Layout)

/-- A cursor in the window is placed where it is. -/
theorem placeCursor_of_visible (tabWidth : Nat)
    (hline : scene.topLine ≤ scene.cursor.line ∧ scene.cursor.line < scene.topLine + layout.paneHeight)
    (hcol : displayCol (lineAt scene.view.text scene.cursor.line) scene.cursor.col tabWidth - scene.leftCol
      < layout.leftWidth) :
    placeCursor scene layout tabWidth =
      [.moveTo (layout.paneTop + (scene.cursor.line - scene.topLine))
        (displayCol (lineAt scene.view.text scene.cursor.line) scene.cursor.col tabWidth - scene.leftCol),
      .showCursor] := by
  unfold placeCursor
  simp only
  rw [if_pos hline, Nat.min_eq_left (by omega)]

/-- The stroke of the cursor's line begins with the text that the raw pane shows of it. -/
theorem exists_stroke_of_cursor [Engine] (display : Display) {cols rows : Nat} (hcols : 3 ≤ cols) (hrows : 4 ≤ rows)
    {row : Nat} (hrow : row < rows - 3) {line : List Char}
    (hline : scene.view.lines[scene.topLine + row]? = some line) :
    ∃ rest, ⟨1 + row, 0, runsText (styledRuns line [] scene.base scene.leftCol (cols / 2) display.tabWidth).1 ++ rest⟩
      ∈ written (draw scene (Layout.compute cols rows) display) := by
  rw [written_draw scene hcols hrows, runsText_styledRuns]
  have hstroke : (⟨1 + row, 0, rowText scene (Layout.compute cols rows) display.tabWidth row⟩ : Stroke) ∈
      rowStrokes scene (Layout.compute cols rows) display.tabWidth :=
    List.mem_append_left _ (List.mem_cons_of_mem _ (List.mem_map_of_mem (List.mem_range.2 hrow)))
  rw [rowText, hline] at hstroke
  simp only [leftText, paneText, List.append_assoc] at hstroke
  exact ⟨_, hstroke⟩

end Frame

/-! ## Runs -/

namespace Interaction

/-- **The runs that a run leads to**, each at rest before its next frame.  Between two frames a command is handled on
the screen as it is, or the screen has a new size and is redrawn. -/
inductive Reached [Engine] (first : Interaction) : Interaction → Prop
  | start : Reached first first
  | command {run : Interaction} (reply : Reply) (command : Command) (h : Reached first run)
      (hruns : (run.draw.2.handle reply command).2 = true) : Reached first (run.draw.2.handle reply command).1
  | resize {run : Interaction} (cols rows : Nat) (reply : Reply) (h : Reached first run) :
      Reached first (({ run.draw.2 with cols, rows } : Interaction).handle reply .redraw).1

/-- **A run in view**: its session is in place and its window shows the cursor on the screen of the next frame, which
has the tab stops of the session. -/
structure InView (run : Interaction) : Prop where
  inPlace : run.session.InPlace
  inWindow : run.session.InWindow run.layout
  tabWidth : run.display.tabWidth = max run.session.tabWidth 1

variable {run : Interaction}

theorem inView_start (text : List Char) (config : Config) (cols rows : Nat) :
    (start (Session.start text config) cols rows).InView where
  inPlace := Session.inPlace_start text config
  inWindow := Session.inWindow_start text config _
  tabWidth := rfl

theorem tabWidth_draw [Engine] (run : Interaction) : run.draw.2.display.tabWidth = run.display.tabWidth := by
  show (run.display.render run.session.scene run.cols run.rows).2.tabWidth = _
  unfold Display.render
  simp only
  split <;> rfl

theorem tabWidth_display_handle (run : Interaction) (reply : Reply) (command : Command) :
    (run.handle reply command).1.display.tabWidth = run.display.tabWidth := by
  show (if command = .redraw then run.display.forceRedraw else run.display).tabWidth = _
  split <;> rfl

/-- **A command brings the cursor into view**, whatever the size of the screen was before. -/
theorem inView_handle (run : Interaction) (hplace : run.session.InPlace)
    (htab : run.display.tabWidth = max run.session.tabWidth 1) (reply : Reply) {command : Command}
    (hruns : (run.handle reply command).2 = true) : (run.handle reply command).1.InView where
  inPlace := Session.inPlace_handle hplace reply run.layout command
  inWindow := Session.inWindow_handle hruns
  tabWidth := by
    rw [tabWidth_display_handle, htab]
    show _ = max (run.session.handle reply run.layout command).1.tabWidth 1
    rw [Session.tabWidth_handle]

/-- **Every frame of a run is drawn in view.** -/
theorem inView_of_reached [Engine] {first : Interaction} (hfirst : first.InView) (h : Reached first run) :
    run.InView := by
  induction h with
  | start => exact hfirst
  | @command run reply command _ hruns ih =>
    exact inView_handle run.draw.2 ih.inPlace ((tabWidth_draw run).trans ih.tabWidth) reply hruns
  | @resize run cols rows reply _ ih =>
    exact inView_handle { run.draw.2 with cols, rows } ih.inPlace ((tabWidth_draw run).trans ih.tabWidth)
      reply rfl

/-- An event that does not end a run leads to its next frame. -/
theorem Reached.event [Engine] {first : Interaction} (h : Reached first run) (reply : Reply) (event : Event)
    (hruns : ((run.draw.2.resized event).handle reply event.command).2 = true) :
    Reached first ((run.draw.2.resized event).handle reply event.command).1 := by
  cases event with
  | resize cols rows => exact h.resize cols rows reply
  | _ => exact h.command reply _ hruns

theorem play_cons [Engine] (run : Interaction) (outside : Outside) (event : Event) (rest : List Event) :
    let served := outside.serve ((run.draw.2.resized event).session.request event.command)
    let handled := (run.draw.2.resized event).handle served.1 event.command
    (run.play outside (event :: rest)).1 =
      run.draw.1 ++ if handled.2 then (handled.1.play served.2 rest).1 else [] := by
  intro served handled
  have hstep : (run.draw.2.resized event).step outside event.command = (handled.1, served.2, handled.2) := rfl
  rw [play]
  simp only [hstep]
  cases handled.2 with
  | false => exact (List.append_nil _).symm
  | true => rfl

/-- **All that a run draws are frames of runs that it leads to**, whatever comes in and whatever is outside. -/
theorem exists_frames_of_play [Engine] {first : Interaction} : ∀ (events : List Event) {run : Interaction}
    (outside : Outside), Reached first run → ∃ runs : List Interaction,
      (run.play outside events).1 = runs.flatMap (fun r => r.draw.1) ∧ ∀ r ∈ runs, Reached first r
  | [], _, _, _ => ⟨[], rfl, fun _ h => by cases h⟩
  | event :: rest, run, outside, h => by
    rw [play_cons]
    split
    · rename_i hruns
      obtain ⟨runs, hframes, hreached⟩ := exists_frames_of_play rest _ (h.event _ event hruns)
      refine ⟨run :: runs, congrArg (run.draw.1 ++ ·) hframes, fun r hr => ?_⟩
      rcases List.mem_cons.1 hr with rfl | hr
      · exact h
      · exact hreached r hr
    · exact ⟨[run], rfl, fun r hr => List.mem_singleton.1 hr ▸ h⟩

/-! ## The cursor -/

/-- On a screen with room for the panes the window is no larger than the raw pane. -/
theorem InView.visible (h : run.InView) (hcols : 3 ≤ run.cols) (hrows : 4 ≤ run.rows) :
    (run.session.topLine ≤ run.session.cursor.line ∧
      run.session.cursor.line - run.session.topLine < run.layout.paneHeight) ∧
    (run.session.leftCol ≤ run.session.cursorCol ∧
      run.session.cursorCol - run.session.leftCol < run.layout.leftWidth) := by
  obtain ⟨htop, hline, hleft, hcol⟩ := h.inWindow
  have hheight : run.layout.paneHeight = run.rows - 3 := rfl
  have hwidth : run.layout.leftWidth = run.cols / 2 := rfl
  exact ⟨⟨htop, by omega⟩, ⟨hleft, by omega⟩⟩

theorem draw_eq_frame [Engine] (hcols : 3 ≤ run.cols) (hrows : 4 ≤ run.rows) :
    run.draw.1 = Frame.draw run.session.scene run.layout run.display := by
  have hpanes : run.layout.hasPanes = true := (Layout.hasPanes_compute run.cols run.rows).2 ⟨hcols, hrows⟩
  exact congrArg Prod.fst (show run.display.render run.session.scene run.cols run.rows = _ from if_pos hpanes)

/-- **A frame in view ends with the cursor in the window**, where no clamp has a say. -/
theorem InView.draw_eq [Engine] (h : run.InView) (hcols : 3 ≤ run.cols) (hrows : 4 ≤ run.rows) :
    ∃ ops, run.draw.1 = ops ++ [.moveTo (1 + (run.session.cursor.line - run.session.topLine))
      (run.session.cursorCol - run.session.leftCol), .showCursor] ∧ ScreenOp.showCursor ∉ ops := by
  obtain ⟨⟨htop, hline⟩, hleft, hcol⟩ := h.visible hcols hrows
  obtain ⟨ops, hops, hdraws⟩ := Frame.exists_draw_eq run.session.scene run.layout run.display
  have hcursorCol : displayCol (lineAt run.session.view.text run.session.cursor.line) run.session.cursor.col
      run.display.tabWidth = run.session.cursorCol := by
    rw [h.tabWidth]
    exact displayCol_tabWidth _ _ _
  have hplaced := Frame.placeCursor_of_visible run.session.scene run.layout run.display.tabWidth
    ⟨htop, show run.session.cursor.line < run.session.topLine + run.layout.paneHeight by omega⟩ (hcursorCol ▸ hcol)
  refine ⟨ops, ?_, hdraws.not_shown⟩
  rw [draw_eq_frame hcols hrows, hops, hplaced]
  exact congrArg (fun col => ops ++ [ScreenOp.moveTo _ (col - run.session.leftCol), .showCursor]) hcursorCol

/-- The column of the cursor is the columns of the text before it, at the tab stops of the frame. -/
theorem InView.cursorCol_eq (h : run.InView) : run.session.cursorCol = cellsWidth (cellsOf run.display.tabWidth
    (takeBytes run.session.cursor.col (lineAt run.session.view.text run.session.cursor.line))) := by
  let line := lineAt run.session.view.text run.session.cursor.line
  have hbytes : byteSize (takeBytes run.session.cursor.col line) = run.session.cursor.col := h.inPlace.cursor.col
  have hcol := displayCol_append run.session.tabWidth (takeBytes run.session.cursor.col line)
    (dropBytes run.session.cursor.col line)
  rw [takeBytes_append_dropBytes, hbytes, ← h.tabWidth] at hcol
  exact hcol

/-- **The cursor of a frame stands behind what is before it in its line.**  However a run got there, the row and the
column of the cursor are inside the raw pane, no clamp has a say in them, and the frame shows the cursor there and
nowhere else.  In that row of the raw pane the text before the cursor takes exactly the columns to the left of it, and
begins the text that is drawn for the whole line. -/
theorem cursor_in_its_cell [Engine] (text : List Char) (config : Config) (cols rows : Nat)
    (hrun : Reached (start (Session.start text config) cols rows) run) (hcols : 3 ≤ run.cols) (hrows : 4 ≤ run.rows) :
    let s := run.session
    let line := lineAt s.view.text s.cursor.line
    let d := displayCol line s.cursor.col s.tabWidth
    let row := s.cursor.line - s.topLine
    let drawn := fun part => styledRuns part [] s.scene.base s.leftCol run.layout.leftWidth run.display.tabWidth
    (s.topLine ≤ s.cursor.line ∧ row < run.layout.paneHeight) ∧
    (s.leftCol ≤ d ∧ d - s.leftCol < run.layout.leftWidth) ∧
    (∃ ops, run.draw.1 = ops ++ [.moveTo (1 + row) (d - s.leftCol), .showCursor] ∧ ScreenOp.showCursor ∉ ops) ∧
    ∃ before behind, line = before ++ behind ∧ byteSize before = s.cursor.col ∧
      (drawn before).2 = d - s.leftCol ∧ textWidth (runsText (drawn before).1) = d - s.leftCol ∧
      runsText (drawn before).1 <+: runsText (drawn line).1 ∧
      ∃ rest, ⟨1 + row, 0, runsText (drawn line).1 ++ rest⟩ ∈ written run.draw.1 := by
  intro s line d row drawn
  have hview := inView_of_reached (inView_start text config cols rows) hrun
  obtain ⟨hrowSeen, hcolSeen⟩ := hview.visible hcols hrows
  have hsplit : takeBytes s.cursor.col line ++ dropBytes s.cursor.col line = line := takeBytes_append_dropBytes _ _
  have hd : cellsWidth (cellsOf run.display.tabWidth (takeBytes s.cursor.col line)) = d := hview.cursorCol_eq.symm
  obtain ⟨hused, hbegins⟩ := styledRuns_append [] s.scene.base s.leftCol run.layout.leftWidth run.display.tabWidth
    (takeBytes s.cursor.col line) (dropBytes s.cursor.col line) (by rw [hd]; exact Nat.le_of_lt hcolSeen.2)
  have hwidth := textWidth_styledRuns (takeBytes s.cursor.col line) [] s.scene.base s.leftCol run.layout.leftWidth
    run.display.tabWidth
  -- what the scroll counts is what the drawing lays out
  rw [hd] at hused
  rw [hsplit] at hbegins
  refine ⟨hrowSeen, hcolSeen, hview.draw_eq hcols hrows, takeBytes s.cursor.col line, dropBytes s.cursor.col line,
    hsplit.symm, hview.inPlace.cursor.col, hused, hwidth.trans hused, hbegins, ?_⟩
  -- the row of the cursor shows the line of the cursor
  have hline : s.view.lines[s.topLine + row]? = some line := by
    rw [Nat.add_sub_cancel' hrowSeen.1]
    exact getElem?_linesOf hview.inPlace.cursor.line
  rw [draw_eq_frame hcols hrows]
  exact Frame.exists_stroke_of_cursor s.scene run.display hcols hrows hrowSeen.2 hline

/-- The end of a line with a tab and wide characters, on a screen that came to be seven columns wide. -/
def narrowed : Interaction :=
  letI := Engine.backtracking
  let ended := ((start (Session.start "日\t本x".toList {}) 80 24).draw.2.handle none .lineEnd).1
  (({ ended.draw.2 with cols := 7, rows := 4 } : Interaction).handle none .redraw).1

/-- The left edge cuts the second wide character, and what is left of it stands before the cursor. -/
theorem cursor_in_its_cell_narrowed :
    letI := Engine.backtracking
    narrowed.session.leftCol = 5 ∧
    (∃ ops, narrowed.draw.1 = ops ++ [.moveTo 1 2, .showCursor] ∧ ScreenOp.showCursor ∉ ops) ∧
    ∃ rest, ⟨1, 0, [' ', 'x'] ++ rest⟩ ∈ written narrowed.draw.1 := by
  let := Engine.backtracking
  have hrun : Reached (start (Session.start "日\t本x".toList {}) 80 24) narrowed :=
    (Reached.start.command none .lineEnd rfl).resize 7 4 none
  have hrow : narrowed.session.cursor.line - narrowed.session.topLine = 0 := by decide +kernel
  have hcol : displayCol (lineAt narrowed.session.view.text narrowed.session.cursor.line) narrowed.session.cursor.col
      narrowed.session.tabWidth - narrowed.session.leftCol = 2 := by decide +kernel
  have hdrawn : runsText (styledRuns (lineAt narrowed.session.view.text narrowed.session.cursor.line) []
      narrowed.session.scene.base narrowed.session.leftCol narrowed.layout.leftWidth narrowed.display.tabWidth).1
        = [' ', 'x'] := by decide +kernel
  obtain ⟨-, -, hshown, -, -, -, -, -, -, -, hstroke⟩ := cursor_in_its_cell _ _ _ _ hrun (by decide) (by decide)
  rw [hrow, hcol] at hshown
  rw [hrow, hdrawn] at hstroke
  exact ⟨by decide +kernel, hshown, hstroke⟩

end Interaction
end JsxView

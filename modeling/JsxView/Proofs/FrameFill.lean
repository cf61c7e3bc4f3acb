import JsxView.Backtracking
import JsxView.Proofs.FrameChecked
import JsxView.Proofs.Strokes
/-!
# FrameFill — frames fill the screen

Whatever a frame shows, it writes each row of the screen once, from the first column on and over its whole width, and
it never moves the cursor off the screen (`FillsScreen`).  The rows of the panes add up because each of their parts has
its width: the raw pane, the separator, the number of the line and what is left of the highlighted pane
(`exists_paneRow`).  The number fits its columns because no line has more digits than the last one
(`textWidth_gutterText`).
-/
namespace JsxView

/-! ## Layouts -/

theorem Layout.hasPanes_compute (cols rows : Nat) :
    (compute cols rows).hasPanes = true ↔ 3 ≤ cols ∧ 4 ≤ rows := by
  rw [hasPanes, Bool.and_eq_true, decide_eq_true_eq, decide_eq_true_eq]
  show 0 < rows - 3 ∧ 3 ≤ cols ↔ 3 ≤ cols ∧ 4 ≤ rows
  omega

theorem Layout.leftWidth_lt_rightStart {cols : Nat} (hcols : 0 < cols) (rows : Nat) :
    (compute cols rows).leftWidth < (compute cols rows).rightStart := by
  show cols / 2 < min (cols / 2 + 1) cols
  omega

/-- The panes and the column between them are all columns. -/
theorem Layout.leftWidth_add_rightWidth {cols : Nat} (hcols : 0 < cols) (rows : Nat) :
    (compute cols rows).leftWidth + 1 + (compute cols rows).rightWidth = cols := by
  show cols / 2 + 1 + (cols - min (cols / 2 + 1) cols) = cols
  omega

/-! ## Numbers -/

theorem toNat_of_isDigit {c : Char} (h : c.isDigit) : 48 ≤ c.toNat ∧ c.toNat ≤ 57 := by
  simpa [Char.isDigit, UInt32.le_iff_toNat_le] using h

theorem isControl_of_isDigit {c : Char} (h : c.isDigit) : isControl c = false := by
  have hrange := toNat_of_isDigit h
  have hlow : ¬ c < ' ' := fun hlt => absurd (show c.toNat < 32 from hlt) (by omega)
  have hhigh : ¬ '\x7f' ≤ c := fun hle => absurd (show 127 ≤ c.toNat from hle) (by omega)
  simp only [isControl, hlow, hhigh, decide_false, Bool.false_and, Bool.or_false]

theorem charWidth_of_isDigit {c : Char} (h : c.isDigit) : charWidth c = 1 := by
  have hrange := toNat_of_isDigit h
  rw [charWidth, charWidth?, if_neg (Bool.eq_false_iff.1 (isControl_of_isDigit h)), if_pos (by omega)]
  rfl

theorem textWidth_eq_length : ∀ {text : List Char}, (∀ c ∈ text, charWidth c = 1) → textWidth text = text.length
  | [], _ => rfl
  | c :: rest, h => by
    rw [textWidth_cons, h c List.mem_cons_self, textWidth_eq_length fun d hd => h d (List.mem_cons_of_mem _ hd),
      List.length_cons, Nat.add_comm]

theorem textWidth_decimal (n : Nat) : textWidth (decimal n) = (decimal n).length :=
  textWidth_eq_length fun _ hc => charWidth_of_isDigit (Nat.isDigit_of_mem_toDigits (by omega) (by omega) hc)

/-- A greater number has no fewer digits. -/
theorem length_decimal_le {m n : Nat} (h : m ≤ n) : (decimal m).length ≤ (decimal n).length := by
  have hpos : 0 < (decimal n).length := Nat.length_toDigits_pos
  have hn : n < 10 ^ (decimal n).length := (Nat.length_toDigits_le_iff (by omega) hpos).1 (Nat.le_refl _)
  exact (Nat.length_toDigits_le_iff (by omega) hpos).2 (Nat.lt_of_le_of_lt h hn)

/-- **The number of a line has exactly the columns of the gutter.** -/
theorem textWidth_gutterText {index lines : Nat} (h : index < lines) :
    textWidth (Frame.gutterText index (gutterWidth true lines)) = gutterWidth true lines := by
  have hdigits : (decimal (index + 1)).length ≤ (decimal (max lines 1)).length := length_decimal_le (by omega)
  have hspace : textWidth [' '] = 1 := rfl
  simp only [Frame.gutterText, gutterWidth, if_true, textWidth_append, textWidth_spaces, textWidth_decimal, hspace]
  omega

/-! ## Rows of the panes -/

namespace Frame

/-- Whether the number of a line is drawn: there is such a line, numbers are shown, and they have room. -/
def Numbered (scene : Scene) (layout : Layout) (index : Nat) : Prop :=
  index < scene.view.lineCount ∧ scene.view.lineNumbers = true ∧
    gutterWidth true scene.view.lineCount ≤ layout.rightWidth

/-- **A row of both panes in its parts**, each drawn on its own and as wide as the layout has it.  Where the number of
the line is drawn it is as wide as the gutter. -/
structure PaneRow [Engine] (scene : Scene) (layout : Layout) (tabWidth index : Nat) where
  left : List Char
  number : List Char
  right : List Char
  writesLeft : Writes (leftPane scene layout tabWidth scene.view.lines[index]?) left
  writesSeparator : Writes (separator scene layout) ['│']
  writesRight : Writes (rightPane scene layout tabWidth index scene.view.lines[index]?) (number ++ right)
  leftWidth : textWidth left = layout.leftWidth
  rightWidth : textWidth (number ++ right) = layout.rightWidth
  numbered : Numbered scene layout index →
    number = gutterText index (gutterWidth true scene.view.lineCount) ∧
      textWidth number = gutterWidth true scene.view.lineCount
  numberless : ¬ Numbered scene layout index → number = []

def PaneRow.text [Engine] {scene : Scene} {layout : Layout} {tabWidth index : Nat}
    (row : PaneRow scene layout tabWidth index) : List Char :=
  row.left ++ ['│'] ++ (row.number ++ row.right)

variable (scene : Scene) (layout : Layout) (tabWidth : Nat)

theorem gutter_of_numbered {index : Nat} (h : Numbered scene layout index) :
    gutter scene layout = gutterWidth true scene.view.lineCount := by
  simp only [gutter, h.2.1, if_pos h.2.2]

theorem gutter_of_not_numbered {index : Nat} (hindex : index < scene.view.lineCount)
    (h : ¬ Numbered scene layout index) : gutter scene layout = 0 := by
  unfold gutter
  cases hshown : scene.view.lineNumbers with
  | false => exact ite_self 0
  | true => exact if_neg fun hroom => h ⟨hindex, hshown, hroom⟩

theorem numberText_of_numbered {index : Nat} (h : Numbered scene layout index) :
    numberText index (gutter scene layout) = gutterText index (gutterWidth true scene.view.lineCount) := by
  have hpos : gutterWidth true scene.view.lineCount ≠ 0 := Nat.succ_ne_zero _
  rw [gutter_of_numbered scene layout h, numberText, if_neg hpos]

theorem numberText_of_not_numbered {index : Nat} (hindex : index < scene.view.lineCount)
    (h : ¬ Numbered scene layout index) : numberText index (gutter scene layout) = [] := by
  rw [gutter_of_not_numbered scene layout hindex h, numberText, if_pos rfl]

/-- The number of a line takes the columns that the panes leave to it. -/
theorem textWidth_numberText {index : Nat} (hindex : index < scene.view.lineCount) :
    textWidth (numberText index (gutter scene layout)) = gutter scene layout := by
  by_cases h : Numbered scene layout index
  · rw [numberText_of_numbered scene layout h, gutter_of_numbered scene layout h, textWidth_gutterText hindex]
  · rw [numberText_of_not_numbered scene layout hindex h, gutter_of_not_numbered scene layout hindex h, textWidth_nil]

/-- The highlighted pane begins with the number of its line, if that is drawn, and is filled behind it. -/
theorem exists_rightText (index : Nat) :
    ∃ number right, rightText scene layout tabWidth index scene.view.lines[index]? = number ++ right ∧
      textWidth (number ++ right) = layout.rightWidth ∧
      (Numbered scene layout index → number = gutterText index (gutterWidth true scene.view.lineCount) ∧
        textWidth number = gutterWidth true scene.view.lineCount) ∧
      (¬ Numbered scene layout index → number = []) := by
  cases hline : scene.view.lines[index]? with
  | none =>
    -- behind the last line the pane is blank and has no number
    have hbehind : ¬ Numbered scene layout index := fun h =>
      absurd h.1 (Nat.not_lt.2 (List.getElem?_eq_none_iff.1 hline))
    exact ⟨[], _, rfl, textWidth_paneText none 0 layout.rightWidth tabWidth, fun h => absurd h hbehind, fun _ => rfl⟩
  | some text =>
    have hindex : index < scene.view.lineCount := (List.getElem?_eq_some_iff.1 hline).1
    have hnumber := textWidth_numberText scene layout hindex
    have hpane := textWidth_paneText (some text) 0 (layout.rightWidth - gutter scene layout) tabWidth
    have hroom := gutter_le scene layout
    refine ⟨numberText index (gutter scene layout), _, rfl, ?_, fun h => ?_,
      numberText_of_not_numbered scene layout hindex⟩
    · rw [textWidth_append, hnumber, hpane]
      omega
    · exact ⟨numberText_of_numbered scene layout h, hnumber.trans (gutter_of_numbered scene layout h)⟩

/-- **The text of a row of the panes is that of its parts.** -/
theorem exists_paneRow [Engine] (hseparator : layout.leftWidth < layout.rightStart) (row : Nat) :
    ∃ parts : PaneRow scene layout tabWidth (scene.topLine + row), parts.text = rowText scene layout tabWidth row := by
  have hbetween : separatorText layout = ['│'] := if_pos hseparator
  have hwrites := writes_rightPane scene layout tabWidth (scene.topLine + row) scene.view.lines[scene.topLine + row]?
  obtain ⟨number, right, htext, hwidth, hnumbered, hnumberless⟩ :=
    exists_rightText scene layout tabWidth (scene.topLine + row)
  refine ⟨{ left := leftText scene layout tabWidth scene.view.lines[scene.topLine + row]?
            number
            right
            writesLeft := writes_leftPane scene layout tabWidth _
            writesSeparator := hbetween ▸ writes_separator scene layout
            writesRight := htext ▸ hwrites
            leftWidth := textWidth_paneText _ scene.leftCol layout.leftWidth tabWidth
            rightWidth := hwidth
            numbered := hnumbered
            numberless := hnumberless }, ?_⟩
  show leftText scene layout tabWidth _ ++ ['│'] ++ (number ++ right) = _
  rw [← htext, ← hbetween]
  rfl

/-! ## The screen -/

/-- The rows of a screen are the title, those of the panes, the statistics and the notice. -/
theorem range_rows {rows : Nat} (h : 3 ≤ rows) :
    List.range rows = 0 :: (List.range (rows - 3)).map (1 + ·) ++ [rows - 2, rows - 1] := by
  obtain ⟨n, rfl⟩ := Nat.exists_eq_add_of_le' h
  have hsucc : (fun row => 1 + row) = Nat.succ := funext fun row => Nat.add_comm 1 row
  rw [List.range_succ, List.range_succ, List.range_succ_eq_map, Nat.add_sub_cancel, hsucc, List.append_assoc]
  rfl

theorem textWidth_separator : textWidth ['│'] = 1 := by
  decide +kernel

variable {cols rows : Nat}

/-- **The rows of a frame are the rows of the screen**, each over its whole width. -/
theorem rowStrokes_compute [Engine] (hcols : 3 ≤ cols) (hrows : 4 ≤ rows) :
    (rowStrokes scene (Layout.compute cols rows) tabWidth).map
        (fun stroke => (stroke.row, stroke.col, textWidth stroke.text))
      = (List.range rows).map fun row => (row, 0, cols) := by
  have hrow : ∀ row, textWidth (rowText scene (Layout.compute cols rows) tabWidth row) = cols := by
    intro row
    obtain ⟨parts, hparts⟩ := exists_paneRow scene (Layout.compute cols rows) tabWidth
      (Layout.leftWidth_lt_rightStart (by omega) rows) row
    rw [← hparts, PaneRow.text, textWidth_append, textWidth_append, parts.leftWidth, parts.rightWidth,
      textWidth_separator, Layout.leftWidth_add_rightWidth (by omega) rows]
  rw [range_rows (by omega)]
  simp only [rowStrokes, List.map_cons, List.map_append, List.map_map, List.map_nil, textWidth_fitToWidth,
    Function.comp_def, hrow]
  rfl

theorem place_of_mem_rowStrokes [Engine] (hcols : 3 ≤ cols) (hrows : 4 ≤ rows) {stroke : Stroke}
    (h : stroke ∈ rowStrokes scene (Layout.compute cols rows) tabWidth) :
    stroke.row < rows ∧ stroke.col = 0 ∧ textWidth stroke.text = cols := by
  have hmem := List.mem_map_of_mem (f := fun s : Stroke => (s.row, s.col, textWidth s.text)) h
  rw [rowStrokes_compute scene tabWidth hcols hrows] at hmem
  obtain ⟨row, hrow, hplace⟩ := List.mem_map.1 hmem
  simp only [Prod.mk.injEq] at hplace
  exact ⟨hplace.1 ▸ List.mem_range.1 hrow, hplace.2.1.symm, hplace.2.2.symm⟩

theorem place_of_mem_placeCursor (hcols : 3 ≤ cols) (hrows : 4 ≤ rows) {stroke : Stroke}
    (h : stroke ∈ strokes (placeCursor scene (Layout.compute cols rows) tabWidth)) :
    stroke.row < rows ∧ stroke.col < cols ∧ stroke.text = [] := by
  unfold placeCursor at h
  simp only at h
  split at h
  · rename_i hseen
    cases List.mem_singleton.1 h
    have hheight : scene.cursor.line < scene.topLine + (rows - 3) := hseen.2
    refine ⟨?_, ?_, rfl⟩
    · show 1 + (scene.cursor.line - scene.topLine) < rows
      omega
    · show min _ (cols / 2 - 1) < cols
      omega
  · cases h

/-- **What a frame writes are its rows.** -/
theorem written_draw [Engine] (hcols : 3 ≤ cols) (hrows : 4 ≤ rows) (display : Display) :
    written (draw scene (Layout.compute cols rows) display) =
      rowStrokes scene (Layout.compute cols rows) display.tabWidth := by
  rw [written, strokes_draw, List.filter_append, List.filter_eq_self.2, List.filter_eq_nil_iff.2, List.append_nil]
  · -- the cursor is placed without a text
    intro stroke hstroke
    rw [(place_of_mem_placeCursor scene _ hcols hrows hstroke).2.2]
    decide
  · intro stroke hstroke
    have hwidth := (place_of_mem_rowStrokes scene _ hcols hrows hstroke).2.2
    cases htext : stroke.text with
    | nil =>
      rw [htext, textWidth_nil] at hwidth
      omega
    | cons c rest => rfl

/-- A row of the panes is drawn in its place. -/
theorem exists_drawn [Engine] (hcols : 3 ≤ cols) (hrows : 4 ≤ rows) (display : Display) {row : Nat}
    (hrow : row < rows - 3) :
    ∃ parts : PaneRow scene (Layout.compute cols rows) display.tabWidth (scene.topLine + row),
      ⟨1 + row, 0, parts.text⟩ ∈ written (draw scene (Layout.compute cols rows) display) := by
  obtain ⟨parts, hparts⟩ := exists_paneRow scene (Layout.compute cols rows) display.tabWidth
    (Layout.leftWidth_lt_rightStart (by omega) rows) row
  refine ⟨parts, ?_⟩
  rw [written_draw scene hcols hrows, hparts]
  exact List.mem_append_left _ (List.mem_cons_of_mem _ (List.mem_map_of_mem
    (f := fun row => (⟨1 + row, 0, rowText scene (Layout.compute cols rows) display.tabWidth row⟩ : Stroke))
    (List.mem_range.2 hrow)))

end Frame

/-- **Operations that fill a screen**: nothing is written before the cursor is moved; the texts that are written are
the rows from the top to the bottom, each from the first column on and over all columns; and no move leads off the
screen. -/
structure FillsScreen (ops : List ScreenOp) (cols rows : Nat) : Prop where
  lead : leadText ops = []
  each : (written ops).map (fun stroke => (stroke.row, stroke.col, textWidth stroke.text)) =
    (List.range rows).map fun row => (row, 0, cols)
  moves : ∀ row col, ScreenOp.moveTo row col ∈ ops → row < rows ∧ col < cols

theorem Frame.fillsScreen_draw [Engine] (scene : Scene) {cols rows : Nat} (hcols : 3 ≤ cols) (hrows : 4 ≤ rows)
    (display : Display) : FillsScreen (Frame.draw scene (Layout.compute cols rows) display) cols rows where
  lead := leadText_draw scene _ display
  each := by
    rw [written_draw scene hcols hrows]
    exact rowStrokes_compute scene _ hcols hrows
  moves := by
    intro row col hmove
    -- every move begins a stroke, of a row or of the cursor
    obtain ⟨stroke, hstroke, rfl, rfl⟩ := exists_stroke_of_move hmove
    rw [strokes_draw] at hstroke
    rcases List.mem_append.1 hstroke with h | h
    · obtain ⟨hrow, hcol, -⟩ := place_of_mem_rowStrokes scene _ hcols hrows h
      exact ⟨hrow, by omega⟩
    · obtain ⟨hrow, hcol, -⟩ := place_of_mem_placeCursor scene _ hcols hrows h
      exact ⟨hrow, hcol⟩

/-- **A frame fills the screen or leaves it alone.**  Whatever it shows, at whatever tab width and however it is
scrolled, every number in it can be computed in machine words.  With room for the panes it fills the screen, and each
row of the panes is made of the raw pane, the separator and the highlighted pane, where the number of a line is as wide
as the gutter.  Without that room nothing is written, and a redraw that was asked for stays so. -/
theorem render_fills_screen [Engine] (scene : Scene) (tabWidth : Nat) (pending : Bool) (cols rows : UInt16) :
    let layout := Layout.compute cols.toNat rows.toNat
    let display : Display := ⟨max tabWidth 1, pending⟩
    let frame := display.render scene cols.toNat rows.toNat
    display.render? scene cols.toNat rows.toNat = some frame ∧
    (3 ≤ cols.toNat ∧ 4 ≤ rows.toNat →
      FillsScreen frame.1 cols.toNat rows.toNat ∧
      layout.leftWidth + textWidth ['│'] + layout.rightWidth = cols.toNat ∧
      (∀ row < rows.toNat - 3, ∃ parts : Frame.PaneRow scene layout display.tabWidth (scene.topLine + row),
        ⟨1 + row, 0, parts.text⟩ ∈ written frame.1) ∧
      frame.2 = { display with pending := false }) ∧
    (cols.toNat < 3 ∨ rows.toNat < 4 → frame = ([], display)) := by
  intro layout display frame
  have htab : 0 < max tabWidth 1 := by omega
  refine ⟨display.render?_eq htab scene cols.toNat_lt rows.toNat_lt, ?_, ?_⟩
  · rintro ⟨hcols, hrows⟩
    have hframe : frame = (Frame.draw scene layout display, { display with pending := false }) :=
      if_pos ((Layout.hasPanes_compute _ _).2 ⟨hcols, hrows⟩)
    rw [hframe]
    refine ⟨Frame.fillsScreen_draw scene hcols hrows display, ?_, ?_, rfl⟩
    · rw [Frame.textWidth_separator]
      exact Layout.leftWidth_add_rightWidth (by omega) rows.toNat
    · exact fun row hrow => Frame.exists_drawn scene hcols hrows display hrow
  · intro hsmall
    exact if_neg fun h => absurd ((Layout.hasPanes_compute _ _).1 h) (by omega)

/-- A tab and a wide character cut by the left edge, in seven columns and in two. -/
theorem render_fills_narrow_screen :
    letI := Engine.backtracking
    let scene : Scene := ⟨View.start "\t日本\n\x01é".toList {}, {}, ⟨1, 1⟩, 0, 5⟩
    let display : Display := ⟨4, true⟩
    (FillsScreen (display.render scene 7 5).1 7 5 ∧ (display.render scene 7 5).2.pending = false) ∧
    display.render scene 2 5 = ([], display) := by
  let := Engine.backtracking
  intro scene display
  obtain ⟨hfills, -, -, hpending⟩ := (render_fills_screen scene 4 true 7 5).2.1 (by decide)
  exact ⟨⟨hfills, congrArg Display.pending hpending⟩, (render_fills_screen scene 4 true 2 5).2.2 (by decide)⟩

end JsxView

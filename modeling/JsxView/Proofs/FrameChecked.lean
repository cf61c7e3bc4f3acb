import JsxView.Frame
import JsxView.Proofs.CellColumns
/-!
# FrameChecked — frames in checked arithmetic

A machine computes a frame in words of a fixed size.  There a difference below zero stops the program, a remainder by
zero does too, and a row or a column of more than sixteen bits loses some of them.  Here frames are computed once more
the way a machine does it, in one pass over the characters of each line, and nothing comes out where any of this
happens (`Display.render?`).  It happens on no screen and for no scene: what comes out is the frame
(`Display.render?_eq`).

A definition with a question mark is the one of that name with its arithmetic checked.  Differences that are cut off at
zero on purpose are not: the rows that a screen does not have, the spaces in front of a number that has none, and the
columns of a cursor left of the window.
-/
namespace JsxView

/-- A difference that is not below zero. -/
def minus? (a b : Nat) : Option Nat :=
  if b ≤ a then some (a - b) else none

/-- A remainder that is not by zero. -/
def remainder? (a b : Nat) : Option Nat :=
  if b = 0 then none else some (a % b)

/-- A number of sixteen bits. -/
def short? (n : Nat) : Option Nat :=
  if n < 65536 then some n else none

theorem minus?_eq {a b : Nat} (h : b ≤ a) : minus? a b = some (a - b) :=
  if_pos h

theorem remainder?_eq (a : Nat) {b : Nat} (h : 0 < b) : remainder? a b = some (a % b) :=
  if_neg (Nat.ne_of_gt h)

theorem short?_eq {n : Nat} (h : n < 65536) : short? n = some n :=
  if_pos h

theorem mapM_eq_some {α β : Type} {f : α → Option β} {g : α → β} : ∀ {l : List α},
    (∀ x ∈ l, f x = some (g x)) → l.mapM f = some (l.map g)
  | [], _ => rfl
  | x :: l, h => by
    rw [List.mapM_cons, h x List.mem_cons_self, mapM_eq_some fun y hy => h y (List.mem_cons_of_mem _ hy)]
    rfl

/-! ## Cells -/

def cellText? (tabWidth col : Nat) (c : Char) : Option (List Char × Nat) :=
  if c = '\t' then do
    let width ← minus? tabWidth (← remainder? col tabWidth)
    return (spaces width, width)
  else return cellText tabWidth col c

/-- What shows of a cell that ends at a column behind the first `skip` ones. -/
def cutCell? (skip stop : Nat) (text : List Char) (width : Nat) : Option (List Char × Nat) := do
  if (← minus? stop width) < skip then
    let width ← minus? stop skip
    return (spaces width, width)
  else return (text, width)

/-- The pieces that show of a text that starts at the given byte and column, and the columns used with them, given
those used before them. -/
def piecesFrom? (spans : List Span) (base : Style) (skip room tabWidth : Nat) :
    Nat → Nat → Nat → List Char → Option (List (List Char × Style) × Nat)
  | _, _, used, [] => some ([], used)
  | byte, col, used, c :: rest => do
    let (text, width) ← cellText? tabWidth col c
    let stop := col + width
    if stop ≤ skip then piecesFrom? spans base skip room tabWidth (byte + c.utf8Size) stop used rest
    else
      let (text, width) ← cutCell? skip stop text width
      if room < used + width then return ([], used)
      else
        let (more, total) ← piecesFrom? spans base skip room tabWidth (byte + c.utf8Size) stop (used + width) rest
        return ((text, styleAt spans base byte) :: more, total)

def styledRuns? (line : List Char) (spans : List Span) (base : Style) (skip room tabWidth : Nat) :
    Option (List Run × Nat) := do
  let (pieces, used) ← piecesFrom? spans base skip room tabWidth 0 0 0 line
  return (joinRuns pieces, used)

/-- The display columns before a byte of a text that starts at the given byte and column. -/
def columnsFrom? (tabWidth stop : Nat) : Nat → Nat → List Char → Option Nat
  | _, col, [] => some col
  | byte, col, c :: rest =>
    if stop ≤ byte then some col
    else do
      let (_, width) ← cellText? tabWidth col c
      columnsFrom? tabWidth stop (byte + c.utf8Size) (col + width) rest

def displayCol? (line : List Char) (byte tabWidth : Nat) : Option Nat :=
  columnsFrom? (max tabWidth 1) byte 0 0 line

/-- What shows of a text in a given width, and the spaces behind it, given the columns used before it. -/
def fitFrom? (width : Nat) : Nat → List Char → Option (List Char)
  | used, [] => return spaces (← minus? width used)
  | used, c :: rest =>
    if width < used + charWidth c then return spaces (← minus? width used)
    else return c :: (← fitFrom? width (used + charWidth c) rest)

theorem cellText?_eq {tabWidth : Nat} (htab : 0 < tabWidth) (col : Nat) (c : Char) :
    cellText? tabWidth col c = some (cellText tabWidth col c) := by
  unfold cellText? cellText
  split
  · rw [remainder?_eq col htab]
    show (minus? tabWidth (col % tabWidth)).bind _ = _
    rw [minus?_eq (Nat.le_of_lt (Nat.mod_lt col htab))]
    rfl
  · rfl

theorem cutCell?_eq {skip col width : Nat} (text : List Char) (h : skip < col + width) :
    cutCell? skip (col + width) text width =
      some (if col < skip then (spaces (col + width - skip), col + width - skip) else (text, width)) := by
  unfold cutCell?
  rw [minus?_eq (Nat.le_add_left width col), Nat.add_sub_cancel]
  show (if col < skip then _ else _) = _
  split
  · rw [minus?_eq (Nat.le_of_lt h)]
    rfl
  · rfl

/-- **One pass over a text draws the cells that show.** -/
theorem piecesFrom?_eq {tabWidth : Nat} (htab : 0 < tabWidth) (spans : List Span) (base : Style) (skip room : Nat)
    (line : List Char) : ∀ {byte col used : Nat}, used ≤ room →
    piecesFrom? spans base skip room tabWidth byte col used line =
      let cells := takeColumns (room - used) ((cellsFrom tabWidth byte col line).filterMap (Cell.clipLeft skip))
      some (cells.map fun cell => (cell.text, styleAt spans base cell.byte), used + cellsWidth cells) := by
  induction line with
  | nil => exact fun _ => rfl
  | cons c rest ih =>
    intro byte col used hused
    rw [piecesFrom?, cellText?_eq htab, cellsFrom_cons]
    generalize (cellText tabWidth col c) = shown
    obtain ⟨text, width⟩ := shown
    show (if col + width ≤ skip then _ else _) = _
    -- a cell is dropped, or else cut or kept and drawn if there is room for it
    split
    · rename_i hgone
      rw [List.filterMap_cons_none (by simp only [Cell.clipLeft, if_pos hgone])]
      exact ih hused
    · rename_i hshows
      rw [cutCell?_eq text (by omega)]
      have hclip : Cell.clipLeft skip ⟨byte, col, text, width⟩ =
          let shown := if col < skip then (spaces (col + width - skip), col + width - skip) else (text, width)
          some ⟨byte, col, shown.1, shown.2⟩ := by
        simp only [Cell.clipLeft, if_neg hshows]
        split <;> rfl
      rw [List.filterMap_cons_some hclip, takeColumns]
      generalize (if col < skip then (spaces (col + width - skip), col + width - skip) else (text, width)) = shown
      obtain ⟨text, width'⟩ := shown
      show (if room < used + width' then _ else _) = _
      dsimp only
      by_cases hroom : room < used + width'
      · rw [if_pos hroom, if_neg (by omega)]
        rfl
      · rw [if_neg hroom, if_pos (by omega), ih (by omega)]
        show some (_ :: _, _) = some (_ :: _, _)
        rw [cellsWidth_cons, Nat.sub_add_eq, Nat.add_assoc]

theorem styledRuns?_eq {tabWidth : Nat} (htab : 0 < tabWidth) (line : List Char) (spans : List Span) (base : Style)
    (skip room : Nat) :
    styledRuns? line spans base skip room tabWidth = some (styledRuns line spans base skip room tabWidth) := by
  unfold styledRuns?
  rw [piecesFrom?_eq htab spans base skip room line (Nat.zero_le room)]
  show some (_, 0 + _) = some (_, _)
  rw [Nat.zero_add]
  rfl

theorem columnsFrom?_eq {tabWidth : Nat} (htab : 0 < tabWidth) (stop : Nat) (line : List Char) : ∀ byte col : Nat,
    columnsFrom? tabWidth stop byte col line =
      some (col + cellsWidth ((cellsFrom tabWidth byte col line).takeWhile fun cell => cell.byte < stop)) := by
  induction line with
  | nil => exact fun _ _ => rfl
  | cons c rest ih =>
    intro byte col
    rw [columnsFrom?, cellText?_eq htab, cellsFrom_cons]
    by_cases hstop : stop ≤ byte
    · rw [if_pos hstop, List.takeWhile_cons_of_neg (by simpa using hstop)]
      rfl
    · rw [if_neg hstop, List.takeWhile_cons_of_pos (by simpa using hstop), cellsWidth_cons, ← Nat.add_assoc]
      exact ih _ _

theorem displayCol?_eq (line : List Char) (byte tabWidth : Nat) :
    displayCol? line byte tabWidth = some (displayCol line byte tabWidth) := by
  unfold displayCol?
  rw [columnsFrom?_eq (by omega), Nat.zero_add]
  rfl

theorem fitFrom?_eq {width : Nat} (text : List Char) : ∀ {used : Nat}, used ≤ width →
    fitFrom? width used text = some (fitToWidth text (width - used)) := by
  induction text with
  | nil =>
    intro used hused
    rw [fitFrom?, minus?_eq hused]
    rfl
  | cons c rest ih =>
    intro used hused
    rw [fitFrom?, fitToWidth, takeWidth]
    by_cases hroom : width < used + charWidth c
    · rw [if_pos hroom, if_neg (by omega), minus?_eq hused]
      rfl
    · rw [if_neg hroom, if_pos (by omega), ih (by omega)]
      show some (c :: fitToWidth rest _) = some (c :: (_ ++ spaces _))
      rw [fitToWidth, textWidth_cons, Nat.sub_add_eq, Nat.sub_add_eq]

/-! ## Frames -/

namespace Frame

def reversedRow? (row cols : Nat) (text : List Char) : Option (List ScreenOp) := do
  let shown ← fitFrom? cols 0 text
  return [.moveTo row 0, .resetStyle, .reverse, .write shown, .resetStyle]

def noticeRow? (layout : Layout) (notice : Option Notice) : Option (List ScreenOp) := do
  let style := notice.elim [] fun n => n.kind.style.ops
  let shown ← fitFrom? layout.cols 0 (notice.elim keyHint Notice.message)
  return [.moveTo layout.noticeRow 0, .resetStyle] ++ style ++ [.write shown, .resetStyle]

/-- Here the columns that are taken of the pane already come off its width. -/
def drawPane? (line : Option (List Char)) (spans : List Span) (style : Style) (skip width taken tabWidth : Nat) :
    Option (List ScreenOp) :=
  match line with
  | some text => do
    let (runs, used) ← styledRuns? text spans style skip (← minus? width taken) tabWidth
    return drawRuns runs ++ fill style (← minus? width (taken + used))
  | none => return fill style (← minus? width taken)

def gutterText? (index width : Nat) : Option (List Char) := do
  let digits := decimal (index + 1)
  let room ← minus? width 1
  return spaces (room - digits.length) ++ digits ++ [' ']

def lineNumber? (scene : Scene) (index width : Nat) : Option (List ScreenOp) :=
  if width = 0 then return []
  else
    return writeStyled { fg := scene.view.theme.palette.lineNumber, bg := (scene.lineStyle index).bg }
      (← gutterText? index width)

def rightPane? [Engine] (scene : Scene) (layout : Layout) (tabWidth index : Nat) (line : Option (List Char)) :
    Option (List ScreenOp) :=
  match line with
  | some text => do
    let width := gutter scene layout
    let number ← lineNumber? scene index width
    return number
      ++ (← drawPane? line (spansOf text) (scene.lineStyle index) 0 layout.rightWidth width tabWidth)
  | none => drawPane? none [] (scene.lineStyle index) 0 layout.rightWidth 0 tabWidth

def paneRow? [Engine] (scene : Scene) (layout : Layout) (tabWidth row : Nat) : Option (List ScreenOp) := do
  let index := scene.topLine + row
  let line := scene.view.lines[index]?
  let place ← short? (layout.paneTop + (← short? row))
  let left ← drawPane? line [] scene.base scene.leftCol layout.leftWidth 0 tabWidth
  let right ← rightPane? scene layout tabWidth index line
  return .moveTo place 0 :: left ++ separator scene layout ++ right

def placeCursor? (scene : Scene) (layout : Layout) (tabWidth : Nat) : Option (List ScreenOp) :=
  let cursor := scene.cursor
  if scene.topLine ≤ cursor.line ∧ cursor.line < scene.topLine + layout.paneHeight then do
    let before ← displayCol? (lineAt scene.view.text cursor.line) cursor.col tabWidth
    let row ← short? (layout.paneTop + (← short? (← minus? cursor.line scene.topLine)))
    let col ← short? (min (before - scene.leftCol) (layout.leftWidth - 1))
    return [.moveTo row col, .showCursor]
  else return []

def draw? [Engine] (scene : Scene) (layout : Layout) (display : Display) : Option (List ScreenOp) := do
  let title ← reversedRow? 0 layout.cols (titleText scene)
  let panes ← (List.range layout.paneHeight).mapM (paneRow? scene layout display.tabWidth)
  let stats ← reversedRow? layout.statsRow layout.cols (statsText scene.view.stats)
  let notice ← noticeRow? layout scene.view.notice
  let cursor ← placeCursor? scene layout display.tabWidth
  let before := ScreenOp.hideCursor :: if display.pending then [.clear] else []
  return before ++ title ++ panes.flatten ++ stats ++ notice ++ cursor

end Frame

def Layout.compute? (cols rows : Nat) : Option Layout := do
  let rightStart := min (cols / 2 + 1) cols
  return { compute cols rows with rightStart, rightWidth := ← minus? cols rightStart }

/-- **The next frame**, where all of it can be computed. -/
def Display.render? [Engine] (display : Display) (scene : Scene) (cols rows : Nat) :
    Option (List ScreenOp × Display) := do
  let layout ← Layout.compute? cols rows
  if layout.hasPanes then return (← Frame.draw? scene layout display, { display with pending := false })
  else return ([], display)

namespace Frame

theorem reversedRow?_eq (row cols : Nat) (text : List Char) :
    reversedRow? row cols text = some (reversedRow row cols text) := by
  unfold reversedRow?
  rw [fitFrom?_eq text (Nat.zero_le cols)]
  rfl

theorem noticeRow?_eq (layout : Layout) (notice : Option Notice) :
    noticeRow? layout notice = some (noticeRow layout notice) := by
  unfold noticeRow?
  rw [fitFrom?_eq _ (Nat.zero_le layout.cols)]
  rfl

theorem lineNumber?_eq (scene : Scene) (index width : Nat) :
    lineNumber? scene index width = some (lineNumber scene index width) := by
  unfold lineNumber? lineNumber
  split
  · rfl
  · rename_i hwidth
    rw [gutterText?, minus?_eq (Nat.one_le_iff_ne_zero.2 hwidth)]
    rfl

theorem placeCursor?_eq (scene : Scene) (layout : Layout) (hrows : layout.paneTop + layout.paneHeight ≤ 65536)
    (hcols : layout.leftWidth ≤ 65536) (tabWidth : Nat) :
    placeCursor? scene layout tabWidth = some (placeCursor scene layout tabWidth) := by
  unfold placeCursor? placeCursor
  simp only
  split
  · rename_i hseen
    rw [displayCol?_eq]
    show (minus? _ _).bind _ = _
    rw [minus?_eq hseen.1]
    show (short? _).bind _ = _
    rw [short?_eq (by omega)]
    show (short? _).bind _ = _
    rw [short?_eq (by omega)]
    show (short? _).bind _ = _
    rw [short?_eq (by omega)]
    rfl
  · rfl

theorem gutter_le (scene : Scene) (layout : Layout) : gutter scene layout ≤ layout.rightWidth := by
  unfold gutter
  simp only
  split
  · assumption
  · exact Nat.zero_le _

variable {tabWidth : Nat} (htab : 0 < tabWidth)
include htab

/-- What is drawn into a pane fits behind what is taken of it. -/
theorem drawPane?_eq (line : Option (List Char)) (spans : List Span) (style : Style) (skip : Nat) {width taken : Nat}
    (htaken : taken ≤ width) : drawPane? line spans style skip width taken tabWidth =
      some (drawPane line spans style skip (width - taken) tabWidth) := by
  cases line with
  | none =>
    rw [drawPane?, minus?_eq htaken]
    rfl
  | some text =>
    have hused := styledRuns_le text spans style skip (width - taken) tabWidth
    rw [drawPane?, minus?_eq htaken]
    show (styledRuns? text spans style skip (width - taken) tabWidth).bind _ = _
    rw [styledRuns?_eq htab]
    show (minus? width (taken + (styledRuns text spans style skip (width - taken) tabWidth).2)).bind _ = _
    rw [minus?_eq (by omega), Nat.sub_add_eq]
    rfl

theorem rightPane?_eq [Engine] (scene : Scene) (layout : Layout) (index : Nat) (line : Option (List Char)) :
    rightPane? scene layout tabWidth index line = some (rightPane scene layout tabWidth index line) := by
  cases line with
  | none =>
    rw [rightPane?, drawPane?_eq htab _ _ _ _ (Nat.zero_le _)]
    rfl
  | some text =>
    rw [rightPane?, lineNumber?_eq]
    show (drawPane? _ _ _ _ _ _ _).bind _ = _
    rw [drawPane?_eq htab _ _ _ _ (gutter_le scene layout)]
    rfl

theorem paneRow?_eq [Engine] (scene : Scene) (layout : Layout) {row : Nat} (hrow : layout.paneTop + row < 65536) :
    paneRow? scene layout tabWidth row = some (paneRow scene layout tabWidth row) := by
  rw [paneRow?, short?_eq (by omega)]
  show (short? (layout.paneTop + row)).bind _ = _
  rw [short?_eq hrow]
  show (drawPane? _ _ _ _ _ _ _).bind _ = _
  rw [drawPane?_eq htab _ _ _ _ (Nat.zero_le _)]
  show (rightPane? _ _ _ _ _).bind _ = _
  rw [rightPane?_eq htab]
  rfl

/-- **Every number of a frame is in bounds** on a layout whose rows and columns are. -/
theorem draw?_eq [Engine] (scene : Scene) (layout : Layout) (hrows : layout.paneTop + layout.paneHeight ≤ 65536)
    (hcols : layout.leftWidth ≤ 65536) (pending : Bool) :
    draw? scene layout ⟨tabWidth, pending⟩ = some (draw scene layout ⟨tabWidth, pending⟩) := by
  have hpanes : (List.range layout.paneHeight).mapM (paneRow? scene layout tabWidth) = some _ :=
    mapM_eq_some fun row hrow => paneRow?_eq htab scene layout (by
      have := List.mem_range.1 hrow
      omega)
  simp only [draw?, reversedRow?_eq, hpanes, noticeRow?_eq, placeCursor?_eq scene layout hrows hcols,
    Option.bind_eq_bind, Option.bind_some]
  rfl

end Frame

theorem Layout.compute?_eq (cols rows : Nat) : Layout.compute? cols rows = some (compute cols rows) := by
  rw [compute?, minus?_eq (Nat.min_le_right _ _)]
  rfl

/-- **Frames never leave the machine words**: on a screen with less than 65536 rows and columns no difference of a frame
is below zero, and every row and column in it has sixteen bits. -/
theorem Display.render?_eq [Engine] (display : Display) (htab : 0 < display.tabWidth) (scene : Scene) {cols rows : Nat}
    (hcols : cols < 65536) (hrows : rows < 65536) :
    display.render? scene cols rows = some (display.render scene cols rows) := by
  have hheight : (Layout.compute cols rows).paneTop + (Layout.compute cols rows).paneHeight ≤ 65536 := by
    show 1 + (rows - 3) ≤ 65536
    omega
  have hwidth : (Layout.compute cols rows).leftWidth ≤ 65536 := by
    show cols / 2 ≤ 65536
    omega
  rw [render?, Layout.compute?_eq]
  show (if (Layout.compute cols rows).hasPanes then _ else _) = _
  rw [Frame.draw?_eq htab scene _ hheight hwidth display.pending, render]
  split <;> rfl

end JsxView

import JsxView.Cells
import JsxView.Cursor
import JsxView.Layout
import JsxView.Screen
import JsxView.View
/-!
# Frames

A frame draws the whole screen: the title, one row of both panes for each line in the
window, the statistics, the notice or the hint, and at last the cursor at its place in the
raw pane.  The raw pane is scrolled sideways, the highlighted pane is not; it has the line
numbers in front and the background of the pinned line.

A screen without room for the panes is left as it is.  The first frame that is drawn
clears the screen before, and so does the first one after a redraw was asked for.
-/
namespace JsxView

/-- What a frame shows: a view and the part of it that is in the window. -/
structure Scene where
  view : View
  highlighter : Highlighter
  cursor : Cursor
  topLine : Nat
  leftCol : Nat

/-- What is remembered from one frame to the next. -/
structure Display where
  /-- The columns between tab stops, one at least. -/
  tabWidth : Nat
  /-- Whether the next frame has to clear the screen. -/
  pending : Bool
  deriving DecidableEq, Repr

def Display.start (tabWidth : Nat) : Display :=
  ⟨max tabWidth 1, true⟩

def Display.forceRedraw (display : Display) : Display :=
  { display with pending := true }

namespace Scene

def base (scene : Scene) : Style :=
  { fg := scene.view.theme.palette.text, bg := scene.view.theme.palette.background }

def lineStyle (scene : Scene) (index : Nat) : Style :=
  if scene.view.isPinned index then scene.base.withBg scene.view.theme.palette.highlight
  else scene.base

end Scene

def titleText (scene : Scene) : List Char :=
  " React Code Visualizer | Theme: ".toList ++ scene.view.theme.name
    ++ " | Font: ".toList ++ decimal scene.view.fontSize.toNat
    ++ "px | Line numbers: ".toList ++ (if scene.view.lineNumbers then "on" else "off").toList
    ++ " | Mode: ".toList ++ scene.highlighter.mode.name

def statsText (stats : Stats) : List Char :=
  " Lines: ".toList ++ decimal stats.lines
    ++ "  Characters: ".toList ++ decimal stats.characters
    ++ "  Words: ".toList ++ decimal stats.words
    ++ "  Functions: ".toList ++ decimal stats.functions

def keyHint : List Char :=
  ("C-y copy  C-s download  C-e export  C-t theme  C-l numbers  "
    ++ "M-+/M-- font  C-p pin  C-q quit").toList

def NoticeKind.style : NoticeKind → Style
  | .info => { fg := .rgb 0x50 0xfa 0x7b, bold := true }
  | .error => { fg := .rgb 0xff 0x55 0x55, bold := true }

namespace Frame

/-- A row of text in reverse colors, over the whole width. -/
def reversedRow (row cols : Nat) (text : List Char) : List ScreenOp :=
  [.moveTo row 0, .resetStyle, .reverse, .write (fitToWidth text cols), .resetStyle]

/-- The last row: the notice in its color, or the hint. -/
def noticeRow (layout : Layout) (notice : Option Notice) : List ScreenOp :=
  let style := notice.elim [] fun n => n.kind.style.ops
  let text := notice.elim keyHint Notice.message
  [.moveTo layout.noticeRow 0, .resetStyle] ++ style
    ++ [.write (fitToWidth text layout.cols), .resetStyle]

def drawRuns (runs : List Run) : List ScreenOp :=
  runs.flatMap fun run => writeStyled run.style run.text

/-- Spaces in a style, nothing where there is no room for one. -/
def fill (style : Style) (width : Nat) : List ScreenOp :=
  if width = 0 then [] else writeStyled style (spaces width)

/-- The part of a line in a pane and the spaces behind it. -/
def drawPane (line : Option (List Char)) (spans : List Span) (style : Style)
    (skip width tabWidth : Nat) : List ScreenOp :=
  match line with
  | some text =>
    let (runs, used) := styledRuns text spans style skip width tabWidth
    drawRuns runs ++ fill style (width - used)
  | none => fill style width

/-- The number of a line, to the right of its room and with a space behind it. -/
def gutterText (index width : Nat) : List Char :=
  let digits := decimal (index + 1)
  spaces (width - 1 - digits.length) ++ digits ++ [' ']

/-- The columns that the line numbers take in the highlighted pane, nothing where they do
not fit. -/
def gutter (scene : Scene) (layout : Layout) : Nat :=
  let width := gutterWidth scene.view.lineNumbers scene.view.lineCount
  if width ≤ layout.rightWidth then width else 0

def leftPane (scene : Scene) (layout : Layout) (tabWidth : Nat)
    (line : Option (List Char)) : List ScreenOp :=
  drawPane line [] scene.base scene.leftCol layout.leftWidth tabWidth

def separator (scene : Scene) (layout : Layout) : List ScreenOp :=
  if layout.leftWidth < layout.rightStart then
    let palette := scene.view.theme.palette
    writeStyled { fg := palette.border, bg := palette.background } ['│']
  else []

def lineNumber (scene : Scene) (index width : Nat) : List ScreenOp :=
  if width = 0 then []
  else
    writeStyled { fg := scene.view.theme.palette.lineNumber, bg := (scene.lineStyle index).bg }
      (gutterText index width)

def rightPane [Engine] (scene : Scene) (layout : Layout) (tabWidth index : Nat)
    (line : Option (List Char)) : List ScreenOp :=
  match line with
  | some text =>
    let width := gutter scene layout
    lineNumber scene index width
      ++ drawPane line (spansOf text) (scene.lineStyle index) 0 (layout.rightWidth - width) tabWidth
  | none => drawPane none [] (scene.lineStyle index) 0 layout.rightWidth tabWidth

def paneRow [Engine] (scene : Scene) (layout : Layout) (tabWidth row : Nat) : List ScreenOp :=
  let index := scene.topLine + row
  let line := scene.view.lines[index]?
  .moveTo (layout.paneTop + row) 0 :: leftPane scene layout tabWidth line
    ++ separator scene layout
    ++ rightPane scene layout tabWidth index line

/-- The cursor at its place in the raw pane, if its line is in the window. -/
def placeCursor (scene : Scene) (layout : Layout) (tabWidth : Nat) : List ScreenOp :=
  let cursor := scene.cursor
  if scene.topLine ≤ cursor.line ∧ cursor.line < scene.topLine + layout.paneHeight then
    let col := displayCol (lineAt scene.view.text cursor.line) cursor.col tabWidth - scene.leftCol
    [.moveTo (layout.paneTop + (cursor.line - scene.topLine)) (min col (layout.leftWidth - 1)),
      .showCursor]
  else []

/-- The operations of a frame on a screen that has room for the panes. -/
def draw [Engine] (scene : Scene) (layout : Layout) (display : Display) : List ScreenOp :=
  .hideCursor :: (if display.pending then [.clear] else [])
    ++ reversedRow 0 layout.cols (titleText scene)
    ++ (List.range layout.paneHeight).flatMap (paneRow scene layout display.tabWidth)
    ++ reversedRow layout.statsRow layout.cols (statsText scene.view.stats)
    ++ noticeRow layout scene.view.notice
    ++ placeCursor scene layout display.tabWidth

end Frame

/-- The operations of the next frame, with the display after it. -/
def Display.render [Engine] (display : Display) (scene : Scene) (cols rows : Nat) :
    List ScreenOp × Display :=
  let layout := Layout.compute cols rows
  if layout.hasPanes then (Frame.draw scene layout display, { display with pending := false })
  else ([], display)

end JsxView

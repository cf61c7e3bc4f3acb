/-!
# The layout of the screen

The first row is the title, the last two are the statistics and the notice, and the rows
between them are two panes side by side: the raw text on the left, a column that
separates, and the highlighted text on the right.  A screen that is too small loses the
panes first.
-/
namespace JsxView

structure Layout where
  cols : Nat
  paneTop : Nat
  paneHeight : Nat
  leftWidth : Nat
  rightStart : Nat
  rightWidth : Nat
  statsRow : Nat
  noticeRow : Nat
  deriving DecidableEq, Repr

namespace Layout

def compute (cols rows : Nat) : Layout :=
  let leftWidth := cols / 2
  let rightStart := min (leftWidth + 1) cols
  { cols
    paneTop := 1
    paneHeight := rows - 3
    leftWidth
    rightStart
    rightWidth := cols - rightStart
    statsRow := rows - 2
    noticeRow := rows - 1 }

def hasPanes (layout : Layout) : Bool :=
  0 < layout.paneHeight && 3 ≤ layout.cols

/-- The line that the highlighted pane shows at a screen cell, if it shows one there. -/
def lineAt (layout : Layout) (row col topLine lineCount : Nat) : Option Nat :=
  let line := topLine + (row - layout.paneTop)
  if layout.rightStart ≤ col ∧ layout.paneTop ≤ row ∧ row - layout.paneTop < layout.paneHeight
      ∧ line < lineCount then some line
  else none

end Layout

end JsxView

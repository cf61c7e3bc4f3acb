import JsxView.Text.Bytes
import JsxView.Text.Width
import JsxView.Token
/-!
# Lines as cells on a terminal

A line is drawn character by character.  A tab becomes spaces up to the next tab stop, a
carriage return takes no room, another control character shows as a question mark, and
every other character shows as itself.  `cellsOf` lays a line out from column zero,
`window` cuts out the columns that a pane shows, and `styledRuns` colors what is left and
joins neighbours of one style.
-/
namespace JsxView

def spaces (n : Nat) : List Char :=
  List.replicate n ' '

/-- What a character shows as at a display column, and the columns it takes. -/
def cellText (tabWidth col : Nat) (c : Char) : List Char × Nat :=
  if c = '\t' then
    let width := tabWidth - col % tabWidth
    (spaces width, width)
  else if c = '\r' then ([], 0)
  else if isControl c then (['?'], 1)
  else ([c], charWidth c)

/-- What one character of a line shows as. -/
structure Cell where
  /-- The bytes of the line before the character. -/
  byte : Nat
  /-- The display columns of the line before the character. -/
  col : Nat
  text : List Char
  width : Nat
  deriving DecidableEq, Repr

/-- The cells of a text that starts at the given byte and column. -/
def cellsFrom (tabWidth : Nat) : Nat → Nat → List Char → List Cell
  | _, _, [] => []
  | byte, col, c :: rest =>
    let (text, width) := cellText tabWidth col c
    ⟨byte, col, text, width⟩ :: cellsFrom tabWidth (byte + c.utf8Size) (col + width) rest

def cellsOf (tabWidth : Nat) (line : List Char) : List Cell :=
  cellsFrom tabWidth 0 0 line

/-- The part of a cell behind the first `skip` columns: nothing of a cell that ends there,
spaces for the rest of a cell that is cut. -/
def Cell.clipLeft (skip : Nat) (cell : Cell) : Option Cell :=
  let stop := cell.col + cell.width
  if stop ≤ skip then none
  else if cell.col < skip then
    some { cell with text := spaces (stop - skip), width := stop - skip }
  else some cell

/-- The cells from the left that fit into the given room. -/
def takeColumns : Nat → List Cell → List Cell
  | _, [] => []
  | room, cell :: rest =>
    if cell.width ≤ room then cell :: takeColumns (room - cell.width) rest else []

/-- The cells that show in `room` columns behind the first `skip` ones. -/
def window (skip room : Nat) (cells : List Cell) : List Cell :=
  takeColumns room (cells.filterMap (Cell.clipLeft skip))

def cellsWidth (cells : List Cell) : Nat :=
  cells.foldr (fun cell n => cell.width + n) 0

/-- The style at a byte: that of the first span that does not end before it, if that span
covers it, on the background of the base style, and else the base style. -/
def styleAt (spans : List Span) (base : Style) (byte : Nat) : Style :=
  match (spans.dropWhile fun span => span.stop ≤ byte).head? with
  | some span => if span.contains byte then span.category.style.withBg base.bg else base
  | none => base

structure Run where
  text : List Char
  style : Style
  deriving DecidableEq, Repr

def joinRuns : List (List Char × Style) → List Run
  | [] => []
  | (text, style) :: rest =>
    match joinRuns rest with
    | [] => [⟨text, style⟩]
    | run :: more =>
      if run.style = style then ⟨text ++ run.text, style⟩ :: more
      else ⟨text, style⟩ :: run :: more

/-- What shows of a line in `room` columns behind the first `skip` ones, as runs of one
style each, with the columns that they take. -/
def styledRuns (line : List Char) (spans : List Span) (base : Style)
    (skip room tabWidth : Nat) : List Run × Nat :=
  let cells := window skip room (cellsOf tabWidth line)
  (joinRuns (cells.map fun cell => (cell.text, styleAt spans base cell.byte)), cellsWidth cells)

/-- The display columns before a byte of a line.  A tab width of zero counts as one. -/
def displayCol (line : List Char) (byte tabWidth : Nat) : Nat :=
  cellsWidth ((cellsOf (max tabWidth 1) line).takeWhile fun cell => cell.byte < byte)

/-- The columns of the line numbers with the space behind them: room for three digits at
least, and nothing if no line numbers are shown. -/
def gutterWidth (lineNumbers : Bool) (lines : Nat) : Nat :=
  if lineNumbers then max (decimal (max lines 1)).length 3 + 1 else 0

/-- The characters from the left that fit into the given room. -/
def takeWidth : Nat → List Char → List Char
  | _, [] => []
  | room, c :: rest =>
    if charWidth c ≤ room then c :: takeWidth (room - charWidth c) rest else []

/-- The columns of a text, a control character counted as one. -/
def textWidth (text : List Char) : Nat :=
  text.foldr (fun c n => charWidth c + n) 0

/-- A text cut or filled with spaces to the given width. -/
def fitToWidth (text : List Char) (width : Nat) : List Char :=
  let kept := takeWidth width text
  kept ++ spaces (width - textWidth kept)

end JsxView

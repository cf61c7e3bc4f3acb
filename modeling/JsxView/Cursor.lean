import JsxView.Text.Basic
import JsxView.Text.Bytes
/-!
# Cursors

A cursor names a place in a text by the index of a line and the bytes before it in that
line.  It need not fit the text it is used with: `clamp` takes it to the last line if its
line does not exist, and then to the end of the line or the start of the character that
it points into.  Clamped cursors and byte offsets between characters are two names of the
same places: `offset` and `atOffset` lead from one to the other.
-/
namespace JsxView

/-- A line and the bytes before the cursor in it. -/
structure Cursor where
  line : Nat := 0
  col : Nat := 0
  deriving DecidableEq, Repr, Inhabited

namespace Cursor

/-- The cursor taken back into a text and between two of its characters. -/
def clamp (text : List Char) (c : Cursor) : Cursor :=
  let line := min c.line (lineCount text - 1)
  ⟨line, byteSize (takeBytes c.col (lineAt text line))⟩

/-- The bytes of a text before its line with the given index. -/
def lineStart (text : List Char) (line : Nat) : Nat :=
  ((linesOf text).take line).foldr (fun l n => byteSize l + 1 + n) 0

/-- The bytes of a text before the clamped cursor. -/
def offset (text : List Char) (c : Cursor) : Nat :=
  lineStart text (c.clamp text).line + (c.clamp text).col

def atEnd (text : List Char) : Cursor :=
  ⟨lineCount text - 1, byteSize ((linesOf text).getLastD [])⟩

/-- The cursor with the given bytes before it, or at the end of a shorter text. -/
def atOffset (text : List Char) (offset : Nat) : Cursor :=
  atEnd (takeBytes offset text)

end Cursor

end JsxView

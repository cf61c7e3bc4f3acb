import JsxView.Style
/-!
# What is sent to a terminal

A frame is a list of operations: moves of the cursor, changes of the style and text.
Only `ScreenOp.encode` knows the escape sequences; rows and columns are counted from zero
here and from one there.
-/
namespace JsxView

inductive ScreenOp where
  | moveTo (row col : Nat)
  | clear
  | showCursor
  | hideCursor
  | foreground (red green blue : UInt8)
  | background (red green blue : UInt8)
  | resetStyle
  | bold
  | italic
  | reverse
  | write (text : List Char)
  deriving DecidableEq, Repr

namespace ScreenOp

/-- A control sequence: escape, a bracket and its parameters. -/
def control (parameters : List Char) : List Char :=
  '\x1b' :: '[' :: parameters

def colorParameters (kind : List Char) (red green blue : UInt8) : List Char :=
  kind ++ ";2;".toList ++ decimal red.toNat ++ ";".toList ++ decimal green.toNat
    ++ ";".toList ++ decimal blue.toNat ++ "m".toList

def encode : ScreenOp → List Char
  | moveTo row col => control (decimal (row + 1) ++ ";".toList ++ decimal (col + 1) ++ "H".toList)
  | clear => control "2J".toList
  | showCursor => control "?25h".toList
  | hideCursor => control "?25l".toList
  | foreground red green blue => control (colorParameters "38".toList red green blue)
  | background red green blue => control (colorParameters "48".toList red green blue)
  | resetStyle => control "0m".toList
  | bold => control "1m".toList
  | italic => control "3m".toList
  | reverse => control "7m".toList
  | write text => text

def encodeAll (ops : List ScreenOp) : List Char :=
  ops.flatMap encode

end ScreenOp

/-- The operations that set a style from the terminal's own.  An inherited color is left
alone. -/
def Style.ops (style : Style) : List ScreenOp :=
  (match style.fg with
    | .inherited => []
    | .rgb red green blue => [.foreground red green blue])
    ++ (match style.bg with
      | .inherited => []
      | .rgb red green blue => [.background red green blue])
    ++ (if style.bold then [.bold] else [])
    ++ (if style.italic then [.italic] else [])

/-- Text in a style, whatever the style before it was. -/
def writeStyled (style : Style) (text : List Char) : List ScreenOp :=
  .resetStyle :: style.ops ++ [.write text]

end JsxView

import JsxView.Text.Basic
/-!
# Colors and styles

One vocabulary for the terminal panes and for the exported page: a color is either left
to the surroundings or given by its red, green and blue parts, and a style is two colors
and two flags.  `css` writes both as declarations of a style sheet.
-/
namespace JsxView

/-- A color, or the color of the surroundings. -/
inductive Color where
  | inherited
  | rgb (red green blue : UInt8)
  deriving DecidableEq, Repr, Inhabited

/-- A color in a style sheet: six hexadecimal digits, or the word for the surroundings. -/
def Color.css : Color → List Char
  | .inherited => "inherit".toList
  | .rgb red green blue => '#' :: (hexByte red ++ hexByte green ++ hexByte blue)

structure Style where
  fg : Color := .inherited
  bg : Color := .inherited
  bold : Bool := false
  italic : Bool := false
  deriving DecidableEq, Repr, Inhabited

def Style.withBg (style : Style) (color : Color) : Style :=
  { style with bg := color }

/-- The declarations of a style.  A background that is inherited is not declared. -/
def Style.css (style : Style) : List Char :=
  "color: ".toList ++ style.fg.css ++ ";".toList
    ++ (if style.bg = .inherited then [] else " background: ".toList ++ style.bg.css ++ ";".toList)
    ++ (if style.bold then " font-weight: bold;".toList else [])
    ++ (if style.italic then " font-style: italic;".toList else [])

end JsxView

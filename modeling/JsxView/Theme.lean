import JsxView.Style
/-!
# Color themes

Three themes, visited in the order dark, light, monokai and then dark again.  A theme
assigns colors to the parts of the view, on the terminal and on the exported page.
-/
namespace JsxView

inductive Theme where
  | dark
  | light
  | monokai
  deriving DecidableEq, Repr, Inhabited

structure Palette where
  background : Color
  text : Color
  border : Color
  lineNumber : Color
  /-- The background of the pinned line. -/
  highlight : Color
  deriving DecidableEq, Repr

namespace Theme

def next : Theme → Theme
  | .dark => .light
  | .light => .monokai
  | .monokai => .dark

def name : Theme → List Char
  | .dark => "Dark".toList
  | .light => "Light".toList
  | .monokai => "Monokai".toList

def palette : Theme → Palette
  | .dark =>
    { background := .rgb 0x11 0x18 0x27
      text := .rgb 0xf3 0xf4 0xf6
      border := .rgb 0x37 0x41 0x51
      lineNumber := .rgb 0x6b 0x72 0x80
      highlight := .rgb 0x1f 0x29 0x37 }
  | .light =>
    { background := .rgb 0xff 0xff 0xff
      text := .rgb 0x11 0x18 0x27
      border := .rgb 0xd1 0xd5 0xdb
      lineNumber := .rgb 0x9c 0xa3 0xaf
      highlight := .rgb 0xf3 0xf4 0xf6 }
  | .monokai =>
    { background := .rgb 0x1f 0x29 0x37
      text := .rgb 0x4a 0xde 0x80
      border := .rgb 0x22 0xc5 0x5e
      lineNumber := .rgb 0x86 0xef 0xac
      highlight := .rgb 0x37 0x41 0x51 }

end Theme

end JsxView

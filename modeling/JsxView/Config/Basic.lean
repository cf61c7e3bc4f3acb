import JsxView.Config.FontRange
import JsxView.Highlighter
import JsxView.Theme
/-!
# Settings

What the user can set before a session starts.  `Config.default` holds where nothing is
set.
-/
namespace JsxView

structure Config where
  theme : Theme := .dark
  /-- The font size to start with, inside the range. -/
  fontSize : UInt16 := 14
  fontRange : FontRange := {}
  lineNumbers : Bool := true
  mode : HighlightMode := .tokenized
  /-- Whether exported markup escapes the text. -/
  escapes : Bool := true
  tabWidth : Nat := 4
  /-- The directory that downloads and exports are written to. -/
  downloadDir : List Char := ['.']
  deriving DecidableEq, Repr

def Config.default : Config :=
  {}

def Config.highlighter (config : Config) : Highlighter :=
  ⟨config.mode, config.escapes⟩

end JsxView

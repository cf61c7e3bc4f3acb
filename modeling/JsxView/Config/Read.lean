import JsxView.Config.Basic
import JsxView.Toml.Document
/-!
# Reading settings

A settings file is a TOML document whose keys are the nine settings, each of which may be
missing.  Nothing else may stand in it, and each setting takes values of one kind only.  A
file that breaks any of these rules sets nothing at all.

A choice such as the theme is written as its name, or as a table whose only key is the
name and whose value there is empty.
-/
namespace JsxView

structure Settings where
  theme : Option Theme := none
  fontSize : Option Int64 := none
  minFontSize : Option UInt16 := none
  maxFontSize : Option UInt16 := none
  lineNumbers : Option Bool := none
  mode : Option HighlightMode := none
  escapes : Option Bool := none
  tabWidth : Option Nat := none
  downloadDir : Option (List Char) := none
  deriving DecidableEq, Repr

def Theme.settings : List (List Char × Theme) :=
  [("dark".toList, .dark), ("light".toList, .light), ("monokai".toList, .monokai)]

def HighlightMode.settings : List (List Char × HighlightMode) :=
  [("tokenized".toList, .tokenized), ("chained".toList, .chained)]

namespace Toml.Value

def isEmptyContainer : Value → Bool
  | .array [] => true
  | .table _ [] => true
  | _ => false

def choice? {α : Type} (choices : List (List Char × α)) : Value → Option α
  | .string name => choices.lookup name
  | .table _ [(name, v)] => if v.isEmptyContainer then choices.lookup name else none
  | _ => none

def word? : Value → Option Int64
  | .integer n => some (Int64.ofInt n)
  | _ => none

def natural? : Value → Option Nat
  | .integer n => if 0 ≤ n then some n.toNat else none
  | _ => none

/-- The number of a value that fits into 16 bits. -/
def size? (v : Value) : Option UInt16 :=
  (v.natural?.filter (· ≤ 0xffff)).map UInt16.ofNat

def boolean? : Value → Option Bool
  | .boolean b => some b
  | _ => none

def string? : Value → Option (List Char)
  | .string text => some text
  | _ => none

end Toml.Value

def Settings.set (settings : Settings) (name : List Char) (v : Toml.Value) : Option Settings :=
  if name = "theme".toList then
    (v.choice? Theme.settings).map fun x => { settings with theme := some x }
  else if name = "font_size".toList then
    v.word?.map fun x => { settings with fontSize := some x }
  else if name = "min_font_size".toList then
    v.size?.map fun x => { settings with minFontSize := some x }
  else if name = "max_font_size".toList then
    v.size?.map fun x => { settings with maxFontSize := some x }
  else if name = "line_numbers".toList then
    v.boolean?.map fun x => { settings with lineNumbers := some x }
  else if name = "highlight_mode".toList then
    (v.choice? HighlightMode.settings).map fun x => { settings with mode := some x }
  else if name = "escape_html".toList then
    v.boolean?.map fun x => { settings with escapes := some x }
  else if name = "tab_width".toList then
    v.natural?.map fun x => { settings with tabWidth := some x }
  else if name = "download_dir".toList then
    v.string?.map fun x => { settings with downloadDir := some x }
  else none

def Settings.read (text : List Char) : Option Settings :=
  match Toml.parse text with
  | some entries => entries.foldlM (fun settings entry => settings.set entry.1 entry.2) {}
  | none => none

namespace Config

/-- The defaults with the settings of a file.  The bounds of the font size may come in
either order; the font size is taken into them, and the tab width to between one and
sixteen. -/
def ofSettings (settings : Settings) : Config :=
  let range := FontRange.between (settings.minFontSize.getD default.fontRange.min)
    (settings.maxFontSize.getD default.fontRange.max)
  { theme := settings.theme.getD default.theme
    fontSize := range.clamp (settings.fontSize.getD (requestOf default.fontSize))
    fontRange := range
    lineNumbers := settings.lineNumbers.getD default.lineNumbers
    mode := settings.mode.getD default.mode
    escapes := settings.escapes.getD default.escapes
    tabWidth := (settings.tabWidth.map fun n => max 1 (min n 16)).getD default.tabWidth
    downloadDir := settings.downloadDir.getD default.downloadDir }

/-- The configuration of a settings file, none if the file is refused. -/
def parse (text : List Char) : Option Config :=
  (Settings.read text).map ofSettings

end Config

end JsxView

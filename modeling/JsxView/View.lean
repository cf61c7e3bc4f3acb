import JsxView.Config.Basic
import JsxView.Stats
/-!
# The view and the actions on it

A view holds the text with everything that decides how it is shown.  Whatever the user
does to it is one of nine actions, and `View.apply` is the only way from one view to the
next.  A pin names a line by its index; when an edit takes the pinned line away the pin
goes with it.
-/
namespace JsxView

/-- How serious a notice is. -/
inductive NoticeKind where
  | info
  | error
  deriving DecidableEq, Repr

/-- A message that stays on the last row until it is replaced or dismissed. -/
structure Notice where
  kind : NoticeKind
  message : List Char
  deriving DecidableEq, Repr

inductive Action where
  | editText (text : List Char)
  | setTheme (theme : Theme)
  | cycleTheme
  | setFontSize (size : Int64)
  /-- Ask for a change of the font size. -/
  | stepFontSize (delta : Int64)
  | toggleLineNumbers
  /-- Pin a line, or unpin it if it is the pinned one. -/
  | togglePin (line : Nat)
  | showNotice (notice : Notice)
  | dismissNotice
  deriving DecidableEq, Repr

/-- The text and how it is shown. -/
structure View where
  text : List Char
  theme : Theme
  fontSize : UInt16
  fontRange : FontRange
  lineNumbers : Bool
  /-- The index of the pinned line. -/
  pinned : Option Nat
  notice : Option Notice
  deriving DecidableEq, Repr

namespace View

/-- The view of a text that a session starts with. -/
def start (text : List Char) (config : Config) : View :=
  { text
    theme := config.theme
    fontSize := config.fontRange.clamp (requestOf config.fontSize)
    fontRange := config.fontRange
    lineNumbers := config.lineNumbers
    pinned := none
    notice := none }

def lines (view : View) : List (List Char) :=
  linesOf view.text

def lineCount (view : View) : Nat :=
  JsxView.lineCount view.text

def stats (view : View) : Stats :=
  Stats.of view.text

def isPinned (view : View) (line : Nat) : Bool :=
  view.pinned = some line

def apply (view : View) : Action → View
  | .editText text =>
    { view with text, pinned := view.pinned.filter (· < JsxView.lineCount text) }
  | .setTheme theme => { view with theme }
  | .cycleTheme => { view with theme := view.theme.next }
  | .setFontSize size => { view with fontSize := view.fontRange.clamp size }
  | .stepFontSize delta => { view with fontSize := view.fontRange.step view.fontSize delta }
  | .toggleLineNumbers => { view with lineNumbers := !view.lineNumbers }
  | .togglePin line =>
    { view with pinned := if view.pinned = some line then none else some line }
  | .showNotice notice => { view with notice := some notice }
  | .dismissNotice => { view with notice := none }

def applyAll (view : View) (actions : List Action) : View :=
  actions.foldl apply view

end View

end JsxView

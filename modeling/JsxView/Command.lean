import JsxView.Theme
/-!
# Events and commands

What a terminal reports is an event; what a session does about it is a command.
`Event.command` is the whole key map.  Releases of keys, buttons other than the left one
and everything that is not bound do nothing.
-/
namespace JsxView

inductive Command where
  | insert (c : Char)
  | paste (text : List Char)
  | newline
  | backspace
  | delete
  | moveLeft
  | moveRight
  | moveUp
  | moveDown
  | lineStart
  | lineEnd
  | pageUp
  | pageDown
  | cycleTheme
  | selectTheme (theme : Theme)
  | toggleLineNumbers
  | fontBigger
  | fontSmaller
  | resetFontSize
  | pinCursorLine
  /-- A click of the left button on a screen cell. -/
  | click (row col : Nat)
  | copy
  | download
  | exportHtml
  | dismissNotice
  | redraw
  | quit
  | ignore
  deriving DecidableEq, Repr

inductive Key where
  | char (c : Char)
  | tab
  | backTab
  | enter
  | backspace
  | delete
  | insert
  | left
  | right
  | up
  | down
  | home
  | lineEnd
  | pageUp
  | pageDown
  | escape
  | other
  deriving DecidableEq, Repr

inductive KeyKind where
  | press
  | hold
  | release
  deriving DecidableEq, Repr

structure KeyEvent where
  key : Key
  kind : KeyKind := .press
  ctrl : Bool := false
  alt : Bool := false
  deriving DecidableEq, Repr

inductive Event where
  | key (event : KeyEvent)
  /-- The left button went down on a screen cell. -/
  | leftClick (row col : Nat)
  /-- Anything else that the mouse did. -/
  | mouse
  | paste (text : List Char)
  | resize (cols rows : Nat)
  | focus (gained : Bool)
  deriving DecidableEq, Repr

def ctrlCommand (c : Char) : Command :=
  match c.toLower with
  | 't' => .cycleTheme
  | 'l' => .toggleLineNumbers
  | 'p' => .pinCursorLine
  | 'y' => .copy
  | 's' => .download
  | 'e' => .exportHtml
  | 'q' => .quit
  | _ => .ignore

def altCommand : Char → Command
  | '+' => .fontBigger
  | '=' => .fontBigger
  | '-' => .fontSmaller
  | '0' => .resetFontSize
  | '1' => .selectTheme .dark
  | '2' => .selectTheme .light
  | '3' => .selectTheme .monokai
  | _ => .ignore

def KeyEvent.pressCommand (event : KeyEvent) : Command :=
  match event.key with
  | .char c =>
    if event.ctrl then ctrlCommand c else if event.alt then altCommand c else .insert c
  | .tab => .insert '\t'
  | .enter => .newline
  | .backspace => .backspace
  | .delete => .delete
  | .left => .moveLeft
  | .right => .moveRight
  | .up => .moveUp
  | .down => .moveDown
  | .home => .lineStart
  | .lineEnd => .lineEnd
  | .pageUp => .pageUp
  | .pageDown => .pageDown
  | .escape => .dismissNotice
  | .backTab | .insert | .other => .ignore

def KeyEvent.command (event : KeyEvent) : Command :=
  match event.kind with
  | .release => .ignore
  | .press | .hold => event.pressCommand

def Event.command : Event → Command
  | .key event => event.command
  | .leftClick row col => .click row col
  | .paste text => .paste text
  | .resize _ _ => .redraw
  | .mouse | .focus _ => .ignore

end JsxView

import JsxView.Cells
import JsxView.Command
import JsxView.Edit
import JsxView.Files
import JsxView.Layout
import JsxView.Page
/-!
# Sessions

A session is a view with a cursor and a window: the first line and the first display
column that the raw pane shows.  `Session.handle` is what a command does to it under the
layout of the moment.  After every command but the last the window is scrolled by as
little as brings the cursor back into it.

A session does not reach outside by itself.  `Session.request` says what a command wants
from outside, and `handle` is given the reply, which only decides about the notice.
-/
namespace JsxView

inductive Request where
  | copy (text : List Char)
  | save (path text : List Char)
  deriving DecidableEq, Repr

inductive Failure where
  | file (error : FileError)
  | clipboard (reason : List Char)
  deriving DecidableEq, Repr

def Failure.message : Failure → List Char
  | .file error => "I/O error: ".toList ++ error.message
  | .clipboard reason => "Clipboard error: ".toList ++ reason

/-- The reply to a request: nothing where it was met. -/
abbrev Reply := Option Failure

/-- The notice after a request: what to say when it was met, and what to put before the
failure when it was not. -/
def Reply.notice (done failed : List Char) : Reply → Notice
  | none => ⟨.info, done⟩
  | some failure => ⟨.error, failed ++ failure.message⟩

/-- A view with the cursor, the window and what was set before. -/
structure Session where
  view : View
  cursor : Cursor
  /-- The first line in both panes. -/
  topLine : Nat
  /-- The first display column in the raw pane. -/
  leftCol : Nat
  highlighter : Highlighter
  downloadDir : List Char
  /-- The font size that a reset goes back to. -/
  defaultFontSize : UInt16
  tabWidth : Nat

/-- Text as it was pasted, with each carriage return, alone or before a line feed, made
one line feed. -/
def normalizeBreaks : List Char → List Char
  | [] => []
  | '\r' :: '\n' :: rest => '\n' :: normalizeBreaks rest
  | '\r' :: rest => '\n' :: normalizeBreaks rest
  | c :: rest => c :: normalizeBreaks rest

namespace Session

def start (text : List Char) (config : Config) : Session :=
  { view := View.start text config
    cursor := {}
    topLine := 0
    leftCol := 0
    highlighter := config.highlighter
    downloadDir := config.downloadDir
    defaultFontSize := config.fontSize
    tabWidth := config.tabWidth }

def downloadPath (s : Session) : List Char :=
  joinPath s.downloadDir "code.js".toList

def exportPath (s : Session) : List Char :=
  joinPath s.downloadDir "code.html".toList

/-- What a command wants from outside. -/
def request [Engine] (s : Session) : Command → Option Request
  | .copy => some (.copy s.view.text)
  | .download => some (.save s.downloadPath s.view.text)
  | .exportHtml => some (.save s.exportPath (renderPage s.view s.highlighter))
  | _ => none

def act (s : Session) (action : Action) : Session :=
  { s with view := s.view.apply action }

/-- The session with its text edited.  An edit takes the notice away. -/
def edit (s : Session) (edited : List Char × Cursor) : Session :=
  { (s.act (.editText edited.1)).act .dismissNotice with cursor := edited.2 }

def edit? (s : Session) (edited : Option (List Char × Cursor)) : Session :=
  edited.elim s s.edit

def moveTo (s : Session) (cursor : Cursor) : Session :=
  { s with cursor }

/-- The session after a command, before its window follows the cursor. -/
def update (s : Session) (reply : Reply) (layout : Layout) : Command → Session
  | .insert c => s.edit (Edit.insert s.view.text s.cursor [c])
  | .paste text => s.edit (Edit.insert s.view.text s.cursor (normalizeBreaks text))
  | .newline => s.edit (Edit.insert s.view.text s.cursor ['\n'])
  | .backspace => s.edit? (Edit.backspace s.view.text s.cursor)
  | .delete => s.edit? (Edit.delete s.view.text s.cursor)
  | .moveLeft => s.moveTo (Edit.moveLeft s.view.text s.cursor)
  | .moveRight => s.moveTo (Edit.moveRight s.view.text s.cursor)
  | .moveUp => s.moveTo (Edit.moveUp s.view.text s.cursor 1)
  | .moveDown => s.moveTo (Edit.moveDown s.view.text s.cursor 1)
  | .pageUp => s.moveTo (Edit.moveUp s.view.text s.cursor (max layout.paneHeight 1))
  | .pageDown => s.moveTo (Edit.moveDown s.view.text s.cursor (max layout.paneHeight 1))
  | .lineStart => s.moveTo (Edit.lineStart s.cursor)
  | .lineEnd => s.moveTo (Edit.lineEnd s.view.text s.cursor)
  | .cycleTheme => s.act .cycleTheme
  | .selectTheme theme => s.act (.setTheme theme)
  | .toggleLineNumbers => s.act .toggleLineNumbers
  | .fontBigger => s.act (.stepFontSize 1)
  | .fontSmaller => s.act (.stepFontSize (-1))
  | .resetFontSize => s.act (.setFontSize (requestOf s.defaultFontSize))
  | .pinCursorLine => s.act (.togglePin s.cursor.line)
  | .click row col =>
    match layout.lineAt row col s.topLine s.view.lineCount with
    | some line => s.act (.togglePin line)
    | none => s
  | .copy =>
    s.act (.showNotice
      (reply.notice "Code copied to clipboard!".toList "Failed to copy code: ".toList))
  | .download =>
    s.act (.showNotice
      (reply.notice ("Saved ".toList ++ s.downloadPath) "Download failed: ".toList))
  | .exportHtml =>
    s.act (.showNotice
      (reply.notice ("Exported ".toList ++ s.exportPath) "Export failed: ".toList))
  | .dismissNotice => s.act .dismissNotice
  | .redraw | .quit | .ignore => s

/-- The start of a window of the given size that shows a position, as near as possible to
where the window started before. -/
def scrollAxis (start size position : Nat) : Nat :=
  if position < start then position
  else if start + size ≤ position then position + 1 - size
  else start

def cursorCol (s : Session) : Nat :=
  displayCol (lineAt s.view.text s.cursor.line) s.cursor.col s.tabWidth

def scroll (s : Session) (layout : Layout) : Session :=
  { s with
    topLine := scrollAxis s.topLine (max layout.paneHeight 1) s.cursor.line
    leftCol := scrollAxis s.leftCol (max layout.leftWidth 1) s.cursorCol }

/-- The session after a command, given the reply to what the command requested, and
whether the session goes on. -/
def handle (s : Session) (reply : Reply) (layout : Layout) (command : Command) :
    Session × Bool :=
  match command with
  | .quit => (s, false)
  | command => ((s.update reply layout command).scroll layout, true)

end Session

end JsxView

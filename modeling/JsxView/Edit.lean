import JsxView.Cursor
/-!
# Editing

Every edit happens at a cursor, clamped first, and gives the whole new text with the new
cursor.  `insert` puts a text before the cursor and ends behind it, `backspace` and
`delete` take the character before and behind the cursor away, so that a line break taken
away joins two lines, and neither does anything at the end of the text on its side.  The
moves step over one character, over line breaks too, or go to another line and keep the
column as far as that line has it.
-/
namespace JsxView

namespace Edit

def before (text : List Char) (c : Cursor) : List Char :=
  takeBytes (c.offset text) text

def after (text : List Char) (c : Cursor) : List Char :=
  dropBytes (c.offset text) text

/-- The bytes before the character on the left of the cursor, if there is one. -/
def previous? (text : List Char) (c : Cursor) : Option Nat :=
  match (before text c).getLast? with
  | some d => some (c.offset text - d.utf8Size)
  | none => none

/-- A text put in at the cursor, with the cursor behind it. -/
def insert (text : List Char) (c : Cursor) (s : List Char) : List Char × Cursor :=
  let result := before text c ++ s ++ after text c
  (result, Cursor.atOffset result (c.offset text + byteSize s))

def backspace (text : List Char) (c : Cursor) : Option (List Char × Cursor) :=
  match previous? text c with
  | some start =>
    let result := takeBytes start text ++ after text c
    some (result, Cursor.atOffset result start)
  | none => none

def delete (text : List Char) (c : Cursor) : Option (List Char × Cursor) :=
  match after text c with
  | _ :: rest =>
    let result := before text c ++ rest
    some (result, Cursor.atOffset result (c.offset text))
  | [] => none

def moveLeft (text : List Char) (c : Cursor) : Cursor :=
  match previous? text c with
  | some start => Cursor.atOffset text start
  | none => c.clamp text

def moveRight (text : List Char) (c : Cursor) : Cursor :=
  match after text c with
  | d :: _ => Cursor.atOffset text (c.offset text + d.utf8Size)
  | [] => c.clamp text

/-- A number of lines up, at most to the first. -/
def moveUp (text : List Char) (c : Cursor) (lines : Nat) : Cursor :=
  let c := c.clamp text
  Cursor.clamp text ⟨c.line - lines, c.col⟩

/-- A number of lines down, at most to the last. -/
def moveDown (text : List Char) (c : Cursor) (lines : Nat) : Cursor :=
  let c := c.clamp text
  Cursor.clamp text ⟨c.line + lines, c.col⟩

/-- The start of the cursor's line, which need not exist. -/
def lineStart (c : Cursor) : Cursor :=
  ⟨c.line, 0⟩

def lineEnd (text : List Char) (c : Cursor) : Cursor :=
  let line := (c.clamp text).line
  ⟨line, byteSize (lineAt text line)⟩

end Edit

end JsxView

import JsxView.Command
import JsxView.Text.Bytes
/-!
# What a terminal sends

A terminal reports keys, mouse buttons and pastes as characters.  `receive` tells what the
characters that have come in so far amount to: an event, nothing that is known, or the
beginning of something that is not complete yet.

A single escape is told from the beginning of a sequence by what comes next, so it counts
as a key as soon as another escape follows it.
-/
namespace JsxView

/-- What the characters that have come in amount to. -/
inductive Received where
  | event (event : Event)
  /-- Complete, but nothing that is known. -/
  | unknown
  /-- The beginning of something longer. -/
  | incomplete
  deriving DecidableEq, Repr

namespace Received

def press (key : Key) : Received :=
  .event (.key { key })

def ofLetter : Char → Received
  | 'A' => press .up
  | 'B' => press .down
  | 'C' => press .right
  | 'D' => press .left
  | 'H' => press .home
  | 'F' => press .lineEnd
  | 'Z' => press .backTab
  | 'I' => .event (.focus true)
  | 'O' => .event (.focus false)
  | _ => .unknown

def ofNumber : Nat → Received
  | 1 | 7 => press .home
  | 2 => press .insert
  | 3 => press .delete
  | 4 | 8 => press .lineEnd
  | 5 => press .pageUp
  | 6 => press .pageDown
  | _ => .unknown

def number (digits : List Char) : Nat :=
  digits.foldl (fun n c => n * 10 + (c.toNat - '0'.toNat)) 0

def numbers (parameters : List Char) : List Nat :=
  (parameters.splitOn ';').map fun digits => number (digits.takeWhile Char.isDigit)

/-- The report of a mouse button: its number, the column and the row, counted from one. -/
def ofMouse (final : Char) (parameters : List Char) : Received :=
  match numbers parameters with
  | [button, col, row] =>
    if final = 'M' ∧ button % 4 = 0 ∧ button / 32 = 0 then
      .event (.leftClick (row - 1) (col - 1))
    else .event .mouse
  | _ => .unknown

/-- What stands between the marks of a paste, once the closing mark has come in. -/
def ofPaste (text : List Char) : Received :=
  let mark := "\x1b[201~".toList
  if mark.isSuffixOf text then .event (.paste (text.take (text.length - mark.length)))
  else .incomplete

def ofSequence (text : List Char) : Received :=
  let parameters := text.takeWhile fun c => ' ' ≤ c && c < '@'
  match text.drop parameters.length with
  | [] => .incomplete
  | final :: rest =>
    match parameters with
    | '<' :: parameters => ofMouse final parameters
    | _ =>
      if final = '~' then
        if parameters = "200".toList then ofPaste rest
        else ofNumber (number (parameters.takeWhile Char.isDigit))
      else ofLetter final

/-- A key that sends one character, with or without the alt key. -/
def ofChar (alt : Bool) (c : Char) : Received :=
  let key (key : Key) : Received := .event (.key { key, alt })
  if c = '\r' then key .enter
  else if c = '\t' then key .tab
  else if c = '\x7f' then key .backspace
  else if c = '\x1b' then key .escape
  else if c < ' ' then
    .event (.key { key := .char (Char.ofNat (c.toNat + 0x60)), ctrl := true, alt })
  else key (.char c)

end Received

/-- What the characters that have come in amount to. -/
def receive : List Char → Received
  | [] => .incomplete
  | ['\x1b'] => .incomplete
  | '\x1b' :: '[' :: rest => Received.ofSequence rest
  | ['\x1b', 'O'] => .incomplete
  | '\x1b' :: 'O' :: c :: _ => Received.ofLetter c
  | '\x1b' :: '\x1b' :: _ => Received.press .escape
  | '\x1b' :: c :: _ => Received.ofChar true c
  | c :: _ => Received.ofChar false c

end JsxView

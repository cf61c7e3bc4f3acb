import JsxView.Text.Bytes
/-!
# Places in a text

A place lies between two characters of a text, or at one of its ends.  It knows how many
bytes stand before it, which character stands right before it and what comes after it,
which is all that a search from there needs.
-/
namespace JsxView

/-- A place between two characters of a text. -/
structure Place where
  /-- The bytes before the place. -/
  offset : Nat
  /-- The character right before the place, if the text does not start here. -/
  before : Option Char
  /-- The text from the place on. -/
  after : List Char
  deriving DecidableEq, Repr

namespace Place

def start (text : List Char) : Place :=
  ⟨0, none, text⟩

/-- The place one character later, the same place at the end of the text. -/
def next (p : Place) : Place :=
  match p.after with
  | [] => p
  | c :: rest => ⟨p.offset + c.utf8Size, some c, rest⟩

/-- The place a number of characters later. -/
def skip : Place → Nat → Place
  | p, 0 => p
  | p, n + 1 => p.next.skip n

/-- The last place of a text with at most that many bytes before it. -/
def atByte (text : List Char) (offset : Nat) : Place :=
  (start text).skip (takeBytes offset text).length

end Place

end JsxView

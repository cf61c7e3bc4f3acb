import JsxView.Text.Basic
/-!
# Patterns

A pattern looks at one place of a text: the character before the place, if there is one,
and the text from the place on.  It answers how many characters match there.  What
matches at a place never depends on where a search began; only the character before the
place can matter, because words are delimited on both sides.

`Pattern.pieces` cuts a text at every match from left to right: each match is one piece,
and each character that no match covers is a piece of its own.  Joined again the pieces
are the text (`pieces_join`).
-/
namespace JsxView

/-- How many characters match at a place, given the character before it and the text
from it on. -/
abbrev Pattern := Option Char → List Char → Option Nat

/-- A piece of a text cut at the matches of a pattern. -/
inductive Piece where
  /-- A character outside every match. -/
  | plain (c : Char)
  /-- A whole match. -/
  | hit (text : List Char)
  deriving DecidableEq, Repr

def Piece.text : Piece → List Char
  | .plain c => [c]
  | .hit text => text

def Piece.isHit : Piece → Bool
  | .plain _ => false
  | .hit _ => true

def followsWord (before : Option Char) : Bool :=
  before.any isWordChar

def startsWord (text : List Char) : Bool :=
  text.head?.any isWordChar

namespace Pattern

/-- The pieces of a text, when the next `skip` characters still belong to the match
before them and the character before the text is given.  An empty match is no match. -/
def piecesFrom (pattern : Pattern) : Nat → Option Char → List Char → List Piece
  | _, _, [] => []
  | skip + 1, _, c :: rest => piecesFrom pattern skip (some c) rest
  | 0, before, c :: rest =>
    match pattern before (c :: rest) with
    | some (n + 1) => .hit (c :: rest.take n) :: piecesFrom pattern n (some c) rest
    | _ => .plain c :: piecesFrom pattern 0 (some c) rest

/-- A text cut at the matches of a pattern, from left to right. -/
def pieces (pattern : Pattern) (text : List Char) : List Piece :=
  piecesFrom pattern 0 none text

def count (pattern : Pattern) (text : List Char) : Nat :=
  (pieces pattern text).countP Piece.isHit

theorem piecesFrom_join (pattern : Pattern) (skip : Nat) (before : Option Char)
    (text : List Char) :
    (piecesFrom pattern skip before text).flatMap Piece.text = text.drop skip := by
  fun_induction piecesFrom pattern skip before text with
  | case1 => simp
  | case2 before skip c rest ih => simp [ih]
  | case3 before c rest n h ih => simp [ih, Piece.text]
  | case4 before c rest h ih => simp [ih, Piece.text]

/-- Nothing of the text is lost between the pieces. -/
theorem pieces_join (pattern : Pattern) (text : List Char) :
    (pieces pattern text).flatMap Piece.text = text := by
  simp [pieces, piecesFrom_join]

end Pattern

end JsxView

import JsxView.Pattern.Basic
/-!
# Regular expressions

The rules of the highlighter are written as regular expressions with look-around, greedy
and lazy loops and a reference back to a group.  `Regex.ways` reads an expression from a
spot in every way there is, in the order in which backtracking tries them: an alternative
before the next one, another round of a greedy loop before its end, the end of a lazy
loop before another round.  The match at a place is the first of them (`Regex.pattern`).
-/
namespace JsxView

/-- A regular expression with look-around and one group that can be referred to. -/
inductive Regex where
  | empty
  | one (accept : Char → Bool)
  | seq (first next : Regex)
  | alt (first other : Regex)
  | star (greedy : Bool) (body : Regex)
  | group (body : Regex)
  /-- What the group has matched, once more. -/
  | again
  /-- No character, where the text ahead matches if that is wanted, and where it does not if not. -/
  | ahead (wanted : Bool) (body : Regex)
  | behind (wanted : Bool) (accept : Char → Bool)

/-- Where a reader is in a text, and what the group has matched. -/
structure Spot where
  before : Option Char
  after : List Char
  group : Option (List Char)

namespace Spot

def skip (s : Spot) (n : Nat) : Spot :=
  { s with before := (s.after.take n).getLast?.or s.before, after := s.after.drop n }

/-- The spot with what was read since an earlier one in the group. -/
def groupSince (s t : Spot) : Spot :=
  { t with group := some (s.after.take (s.after.length - t.after.length)) }

end Spot

namespace Regex

/-- The ends of a loop, when `round` lists the ends of one round.  Every round takes a character. -/
def rounds (round : Spot → List Spot) (greedy : Bool) : Nat → Spot → List Spot
  | 0, s => [s]
  | fuel + 1, s =>
    let more := (round s).flatMap fun t => if t.after.length < s.after.length then rounds round greedy fuel t else []
    if greedy then more ++ [s] else s :: more

/-- Where reading an expression can end, in the order in which backtracking tries it. -/
@[grind =] def ways : Regex → Spot → List Spot
  | empty, s => [s]
  | one accept, s => if s.after.head?.any accept then [s.skip 1] else []
  | seq first next, s => (first.ways s).flatMap next.ways
  | alt first other, s => first.ways s ++ other.ways s
  | star greedy body, s => rounds body.ways greedy (s.after.length + 1) s
  | group body, s => (body.ways s).map s.groupSince
  | again, s =>
    match s.group with
    | some text => if text.isPrefixOf s.after then [s.skip text.length] else []
    | none => []
  | ahead wanted body, s => if (body.ways s).isEmpty = wanted then [] else [s]
  | behind wanted accept, s => if s.before.any accept = wanted then [s] else []

/-- The expression as a pattern: how many characters the first way takes. -/
def pattern (r : Regex) : Pattern := fun before text =>
  (r.ways ⟨before, text, none⟩).head?.map fun s => text.length - s.after.length

/-- Whether an expression has neither look-around nor a reference back. -/
def plain : Regex → Bool
  | empty | one _ => true
  | seq first next => first.plain && next.plain
  | alt first other => first.plain && other.plain
  | star _ body | group body => body.plain
  | again | ahead .. | behind .. => false

def char (c : Char) : Regex := one (· = c)

def optional (r : Regex) : Regex := alt r empty

def many (accept : Char → Bool) : Regex := star true (one accept)

def spelled : List Char → Regex
  | [] => empty
  | c :: rest => seq (char c) (spelled rest)

def oneOf : List (List Char) → Regex
  | [] => one fun _ => false
  | [word] => spelled word
  | word :: words => alt (spelled word) (oneOf words)

/-- A border between a word character and something else. -/
def wordBorder : Regex :=
  alt (seq (behind true isWordChar) (ahead false (one isWordChar)))
    (seq (behind false isWordChar) (ahead true (one isWordChar)))

end Regex

end JsxView

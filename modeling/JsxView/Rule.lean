import JsxView.Category
import JsxView.Engine
import JsxView.Pattern.Delimited
import JsxView.Pattern.Words
/-!
# Highlighting rules

A rule gives a category to the matches of an expression.  There are two lists of seven
rules, one of each category in order of precedence: the scanner's and the substitution
chain's.  They differ in what has to follow the name of an attribute.

`Rule.find` asks the engine for the next match from a place on.  A search that the engine
gives up finds nothing, like one that comes to the end of the text.  `Rule.findWithin`
looks for a match that ends inside a region, `Rule.findAll` lists the matches of a whole
text from left to right, each found from the end of the one before.
-/
namespace JsxView

/-- An expression whose matches have a category, with what it takes at a place. -/
structure Rule where
  category : Category
  expression : Regex
  pattern : Pattern

/-- A match: its category, where it starts and how many characters it has. -/
structure Found where
  category : Category
  site : Place
  length : Nat
  deriving DecidableEq, Repr

namespace Found

def start (f : Found) : Nat :=
  f.site.offset

def text (f : Found) : List Char :=
  f.site.after.take f.length

def stop (f : Found) : Nat :=
  f.start + byteSize f.text

def next (f : Found) : Place :=
  f.site.skip f.length

end Found

namespace Rule

/-- The non-empty match of a rule at a place. -/
def foundAt (rule : Rule) (p : Place) : Option Found :=
  match rule.pattern p.before p.after with
  | some (n + 1) => some ⟨rule.category, p, n + 1⟩
  | _ => none

/-- The first match at or behind the place that has the given bytes and character before
it and the given text after it. -/
def nearestFrom (rule : Rule) (offset : Nat) (before : Option Char) : List Char → Option Found
  | [] => none
  | c :: rest =>
    match rule.foundAt ⟨offset, before, c :: rest⟩ with
    | some f => some f
    | none => nearestFrom rule (offset + c.utf8Size) (some c) rest

/-- The first match at or behind a place, for an engine that never gives up. -/
def nearest (rule : Rule) (p : Place) : Option Found :=
  rule.nearestFrom p.offset p.before p.after

/-- The byte ranges of the hits among the pieces of a text that starts at an offset. -/
def hitRanges (offset : Nat) : List Piece → List (Nat × Nat)
  | [] => []
  | piece :: rest =>
    let stop := offset + byteSize piece.text
    if piece.isHit then (offset, stop) :: hitRanges stop rest else hitRanges stop rest

section

variable [Engine]

/-- The next match at or behind a place.  Where the engine gives the search up there is none. -/
def find (rule : Rule) (p : Place) : Option Found :=
  if Engine.givesUp rule.expression p then none else rule.nearest p

/-- The first match that ends inside the first `limit` bytes, in at most so many looks.
Behind a match that runs on the search goes on one character behind its start. -/
def findWithinFrom (rule : Rule) (limit : Nat) : Nat → Place → Option Found
  | 0, _ => none
  | looks + 1, p =>
    if p.offset < limit then
      match rule.find p with
      | none => none
      | some f =>
        if limit ≤ f.start then none
        else if f.stop ≤ limit then some f
        else findWithinFrom rule limit looks f.site.next
    else none

/-- The first match at or behind a place that ends inside the first `limit` bytes.  Each
look begins further on, so there are no more of them than characters. -/
def findWithin (rule : Rule) (limit : Nat) (p : Place) : Option Found :=
  rule.findWithinFrom limit p.after.length p

/-- The text from a place on, cut at no more than so many matches. -/
def piecesFrom (rule : Rule) : Nat → Place → List Piece
  | 0, p => p.after.map .plain
  | searches + 1, p =>
    match rule.find p with
    | none => p.after.map .plain
    | some f =>
      (takeBytes (f.start - p.offset) p.after).map .plain ++ .hit f.text :: piecesFrom rule searches f.next

/-- A text cut at the matches that are found in it, each from the end of the one before. -/
def pieces (rule : Rule) (text : List Char) : List Piece :=
  rule.piecesFrom text.length (Place.start text)

/-- The byte ranges of the matches found in a text, from left to right and without overlap. -/
def findAll (rule : Rule) (text : List Char) : List (Nat × Nat) :=
  hitRanges 0 (rule.pieces text)

end

def comments : Rule := ⟨.comment, .commentRegex, commentPattern⟩

def literals : Rule := ⟨.quoted, .quotedRegex, quotedPattern⟩

def framework : Rule := ⟨.framework, .wordRegex frameworkNames, wordPattern frameworkNames⟩

def reserved : Rule := ⟨.keyword, .wordRegex keywords, wordPattern keywords⟩

def numbers : Rule := ⟨.number, .numberRegex, numberPattern⟩

def tags : Rule := ⟨.tag, .tagRegex, tagPattern⟩

def attributes (tail : AttributeTail) : Rule := ⟨.attribute, .attributeRegex tail, attributePattern tail⟩

/-- The seven rules in order of precedence, with the given tail for attribute names. -/
def withTail (tail : AttributeTail) : List Rule :=
  [comments, literals, framework, reserved, numbers, tags, attributes tail]

def scanner : List Rule :=
  withTail .strict

def chained : List Rule :=
  withTail .loose

/-- The rules that look inside a tag: literals and attribute names. -/
def nested : List Rule :=
  scanner.filter fun rule => rule.category ∈ [.quoted, .attribute]

end Rule

end JsxView

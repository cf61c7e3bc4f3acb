import JsxView.Pattern.Basic
/-!
# Statistics of a text

Lines, characters, words and functions.  Characters are UTF-16 units; words are what
white space separates.  Functions are guessed from the text: the words `function` and
`class`, also inside longer words, and `const` with an `=` and a later `=>` behind it
before the next line terminator, which then takes everything up to the last such arrow
along.
-/
namespace JsxView

structure Stats where
  lines : Nat
  characters : Nat
  words : Nat
  functions : Nat
  deriving DecidableEq, Repr

/-- The number of words: non-empty runs between white space. -/
def wordCount (text : List Char) : Nat :=
  (text.splitOnP isScriptSpace).countP fun word => !word.isEmpty

/-- The number of characters before the last arrow `=>`. -/
def lastArrow? : List Char → Option Nat
  | [] => none
  | c :: rest =>
    match lastArrow? rest with
    | some n => some (n + 1)
    | none => if c = '=' && rest.head? = some '>' then some 0 else none

/-- How far an assignment of an arrow function goes, from behind its `const` up to and
with the last arrow before a line terminator.  Some `=` has to stand before that arrow. -/
def arrowAssignmentLength (text : List Char) : Option Nat :=
  let line := text.takeWhile fun c => !isLineTerminator c
  match lastArrow? line with
  | some n => if '=' ∈ line.take n then some (n + 2) else none
  | none => none

def functionPattern : Pattern := fun _ text =>
  if "function".toList.isPrefixOf text then some 8
  else if "class".toList.isPrefixOf text then some 5
  else if "const".toList.isPrefixOf text then (arrowAssignmentLength (text.drop 5)).map (· + 5)
  else none

def Stats.of (text : List Char) : Stats :=
  { lines := lineCount text
    characters := units16 text
    words := wordCount text
    functions := functionPattern.count text }

end JsxView

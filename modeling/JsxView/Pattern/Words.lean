import JsxView.Regex
/-!
# Words, numbers and names of attributes

Words, numbers and names of attributes begin at a border between a word character and
something else.  Each comes twice: as the expression that it is written as, and as what
that expression takes at a place.

A word from a list matches where it stands alone: the characters on both sides, if there
are any, are no word characters.  So the match is always the whole run of word characters
at the place, and that run is on the list.

A number is a run of digits that no word character touches from the left, with an
optional point and more digits behind it.  It has to end at a border too, so the point is
part of the number only where that works out: `5.` is the number `5`, `5.a` is `5.` and
`3.14abc` is `3.`, because between the point and a letter or digit there is such a border.

The name of an attribute is a whole run of ASCII letters and hyphens, so a hyphen begins a
name only behind a word character and a letter only behind none.  What has to follow
depends on who asks: the scanner wants `=` right behind the name, and neither `==` nor
`=>`; the substitution chain allows white space before the `=` and does not look behind it.
-/
namespace JsxView

/-! ## Words from a list -/

def keywords : List (List Char) :=
  ["import", "export", "default", "const", "let", "var", "function", "return",
    "if", "else", "for", "while", "do", "break", "continue", "switch", "case",
    "try", "catch", "finally", "throw", "class", "extends", "super", "this",
    "new", "typeof", "instanceof", "true", "false", "null", "undefined"].map String.toList

def frameworkNames : List (List Char) :=
  ["React", "useState", "useEffect", "useCallback", "useMemo", "useRef",
    "useContext", "Component", "Fragment", "JSX"].map String.toList

def Regex.wordRegex (words : List (List Char)) : Regex :=
  seq wordBorder (seq (oneOf words) wordBorder)

def wordPattern (words : List (List Char)) : Pattern := fun before text =>
  let word := text.takeWhile isWordChar
  if followsWord before then none
  else if word ∈ words then some word.length
  else none

/-! ## Numbers -/

namespace Regex

def fractionRegex : Regex :=
  seq (many Char.isDigit) wordBorder

def numberRegex : Regex :=
  seq wordBorder (seq (one Char.isDigit) (seq (many Char.isDigit) (seq (optional (char '.')) fractionRegex)))

end Regex

def numberPattern : Pattern := fun before text =>
  let whole := text.takeWhile Char.isDigit
  if whole.isEmpty || followsWord before then none
  else
    match text.dropWhile Char.isDigit with
    | '.' :: rest =>
      let fraction := rest.takeWhile Char.isDigit
      if !startsWord rest then some whole.length
      else if fraction.isEmpty || startsWord (rest.dropWhile Char.isDigit) then
        some (whole.length + 1)
      else some (whole.length + 1 + fraction.length)
    | rest => if startsWord rest then none else some whole.length

/-! ## Names of attributes -/

/-- What has to follow the name of an attribute. -/
inductive AttributeTail where
  /-- One `=` right behind the name that begins neither `==` nor `=>`. -/
  | strict
  /-- White space, possibly none, and then `=`. -/
  | loose
  deriving DecidableEq, Repr

def AttributeTail.accepts : AttributeTail → List Char → Bool
  | .strict, '=' :: rest => !(rest.head?.any fun c => c = '=' || c = '>')
  | .strict, _ => false
  | .loose, text => (text.dropWhile isScriptSpace).head? = some '='

def isAttributeChar (c : Char) : Bool :=
  c.isAlpha || c = '-'

namespace Regex

def attributeEnd : AttributeTail → Regex
  | .strict => ahead true (seq (char '=') (ahead false (one fun c => c = '=' || c = '>')))
  | .loose => ahead true (seq (many isScriptSpace) (char '='))

def attributeRegex (tail : AttributeTail) : Regex :=
  seq wordBorder (seq (one isAttributeChar) (seq (many isAttributeChar) (attributeEnd tail)))

end Regex

def attributePattern (tail : AttributeTail) : Pattern := fun before text =>
  let name := text.takeWhile isAttributeChar
  if name.isEmpty || startsWord text = followsWord before then none
  else if tail.accepts (text.dropWhile isAttributeChar) then some name.length
  else none

end JsxView

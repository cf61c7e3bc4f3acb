import JsxView.Regex
/-!
# Comments, literals and tags

Comments, quoted literals and tags run from one delimiter to another.  Each comes twice:
as the expression that it is written as, and as what that expression takes at a place.

A line comment runs from `//` up to the next line terminator or the end of the text.  A
block comment runs from `/*` to the first `*/` behind it, over line terminators too; one
that is never closed is no comment.

A literal opens with a single, double or back quote and closes with the next quote of the
same kind.  A backslash takes the character behind it along, whatever that is, except a
line terminator: there, and at the end of the text, the literal is broken off and does
not match.  A line terminator without a backslash is an ordinary character.

A tag is `<`, an optional slash, a letter with letters and digits behind it, and then
either `>`, or `/>`, or white space with anything up to the first `>`.  Whichever it is,
the tag ends with the first `>` of the text.
-/
namespace JsxView

/-! ## Comments -/

def Regex.commentRegex : Regex :=
  alt (seq (spelled ['/', '/']) (many fun c => !isLineTerminator c))
    (seq (spelled ['/', '*']) (seq (star false (one fun _ => true)) (spelled ['*', '/'])))

/-- The number of characters up to and with the first `*/`. -/
def blockCloseLength : List Char → Option Nat
  | [] => none
  | '*' :: '/' :: _ => some 2
  | _ :: rest => (blockCloseLength rest).map (· + 1)

def commentPattern : Pattern
  | _, '/' :: '/' :: rest => some (2 + (rest.takeWhile fun c => !isLineTerminator c).length)
  | _, '/' :: '*' :: rest => (blockCloseLength rest).map (2 + ·)
  | _, _ => none

/-! ## Quoted literals -/

def isQuote (c : Char) : Bool :=
  c ∈ ['"', '\'', '\x60']

namespace Regex

/-- One character of a literal, or an escape.  The look-ahead keeps the closing quote out. -/
def quotedRound : Regex :=
  alt (seq (char '\\') (one fun c => !isLineTerminator c)) (seq (ahead false again) (one fun c => c ≠ '\\'))

def quotedRegex : Regex :=
  seq (group (one isQuote)) (seq (star false quotedRound) again)

end Regex

/-- The number of characters from behind an opening quote up to and with the closing one. -/
def quotedBodyLength (quote : Char) : List Char → Option Nat
  | [] => none
  | c :: rest =>
    if c = quote then some 1
    else if c = '\\' then
      match rest with
      | [] => none
      | d :: more => if isLineTerminator d then none else (quotedBodyLength quote more).map (· + 2)
    else (quotedBodyLength quote rest).map (· + 1)

def quotedPattern : Pattern
  | _, [] => none
  | _, c :: rest => if isQuote c then (quotedBodyLength c rest).map (· + 1) else none

/-! ## Tags -/

namespace Regex

def tagEnd : Regex :=
  seq (optional (seq (one isScriptSpace) (many fun c => c ≠ '>'))) (seq (optional (char '/')) (char '>'))

def tagName : Regex :=
  seq (one Char.isAlpha) (seq (many Char.isAlphanum) tagEnd)

def tagRegex : Regex :=
  seq (char '<') (seq (optional (char '/')) tagName)

end Regex

/-- Whether a tag may end, or go on with attributes, right behind its name. -/
def closesTagName : List Char → Bool
  | '>' :: _ => true
  | '/' :: '>' :: _ => true
  | c :: _ => isScriptSpace c
  | [] => false

/-- Whether a text begins with the name of a tag and what has to follow it. -/
def startsTagName : List Char → Bool
  | c :: rest => c.isAlpha && closesTagName (rest.dropWhile Char.isAlphanum)
  | [] => false

def opensTag : List Char → Bool
  | '<' :: '/' :: rest => startsTagName rest
  | '<' :: rest => startsTagName rest
  | _ => false

def tagPattern : Pattern := fun _ text =>
  if opensTag text then (text.findIdx? (· = '>')).map (· + 1) else none

end JsxView

import JsxView.Text.Bytes
import JsxView.Token
/-!
# Lines as markup

A marker is an element `span` whose class names the category.  A line is rendered by
putting a marker around each of its tokens, nested as the tokens are, and by writing the
text between and inside the markers with or without escapes.
-/
namespace JsxView

def escapeChar : Char → List Char
  | '&' => "&amp;".toList
  | '<' => "&lt;".toList
  | '>' => "&gt;".toList
  | c => [c]

/-- A text with the characters that would start or break markup replaced. -/
def escapeMarkup (text : List Char) : List Char :=
  text.flatMap escapeChar

/-- A text as it is written in markup, with escapes or as it is. -/
def markupText (escape : Bool) (text : List Char) : List Char :=
  if escape then escapeMarkup text else text

def markerOpen (category : Category) : List Char :=
  "<span class=\"".toList ++ category.cssClass ++ "\">".toList

def markerClose : List Char :=
  "</span>".toList

/-- Markup with the marker of a category around it. -/
def wrap (category : Category) (content : List Char) : List Char :=
  markerOpen category ++ content ++ markerClose

mutual

/-- A token in its marker.  The text is that of the token's range. -/
def Token.render (escape : Bool) (text : List Char) : Token → List Char
  | ⟨category, start, _, children⟩ =>
    wrap category (Token.renderInside escape start text children)

/-- A range of a line with its tokens in markers.  The text is that of the range, which
begins at the byte `pos`. -/
def Token.renderInside (escape : Bool) (pos : Nat) (text : List Char) : List Token → List Char
  | [] => markupText escape text
  | token :: rest =>
    markupText escape (takeBytes (token.start - pos) text)
      ++ token.render escape
          (takeBytes (token.stop - token.start) (dropBytes (token.start - pos) text))
      ++ Token.renderInside escape token.stop (dropBytes (token.stop - pos) text) rest

end

def renderLine (escape : Bool) (line : List Char) (tokens : List Token) : List Char :=
  Token.renderInside escape 0 line tokens

end JsxView

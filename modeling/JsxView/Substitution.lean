import JsxView.Markup
import JsxView.Rule
/-!
# Highlighting by substitution

The chained pipeline runs seven passes over a line.  Each pass puts the marker of its
rule around every match that is found in what the pass before it left.  A marker is ordinary text to
the passes behind it, so markers may be wrapped, split and nested; nothing is escaped,
because escapes would change what the patterns see.
-/
namespace JsxView

/-- A piece of a text, with a marker around it if it is a match. -/
def Piece.mark (category : Category) : Piece → List Char
  | .plain c => [c]
  | .hit text => wrap category text

/-- One pass: every match that is found of a rule in its marker. -/
def Rule.substitute [Engine] (rule : Rule) (text : List Char) : List Char :=
  (rule.pieces text).flatMap (Piece.mark rule.category)

def substituteAll [Engine] (rules : List Rule) (line : List Char) : List Char :=
  rules.foldl (fun text rule => rule.substitute text) line

/-- A line highlighted by the seven passes of the chain. -/
def highlightChained [Engine] (line : List Char) : List Char :=
  substituteAll Rule.chained line

end JsxView

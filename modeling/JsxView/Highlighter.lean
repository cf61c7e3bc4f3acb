import JsxView.Markup
import JsxView.Substitution
import JsxView.Token.Scan
/-!
# The highlighter

A highlighter turns lines into markup by one of two pipelines.  The tokenized one scans
for tokens and renders them, with or without escapes; the chained one substitutes and
never escapes.  The terminal draws spans of tokens whatever the mode, because the chained
output is markup and has no spans.
-/
namespace JsxView

inductive HighlightMode where
  | tokenized
  | chained
  deriving DecidableEq, Repr, Inhabited

def HighlightMode.name : HighlightMode → List Char
  | .tokenized => "tokenized".toList
  | .chained => "chained".toList

/-- A pipeline and whether it escapes. -/
structure Highlighter where
  mode : HighlightMode := .tokenized
  escapes : Bool := true
  deriving DecidableEq, Repr, Inhabited

def spansOf [Engine] (line : List Char) : List Span :=
  Token.flatten (tokenize line)

namespace Highlighter

def highlightLine [Engine] (h : Highlighter) (line : List Char) : List Char :=
  match h.mode with
  | .tokenized => renderLine h.escapes line (tokenize line)
  | .chained => highlightChained line

def highlightText [Engine] (h : Highlighter) (text : List Char) : List (List Char) :=
  (linesOf text).map h.highlightLine

end Highlighter

end JsxView

import JsxView.Category
/-!
# Tokens and spans

A token is a byte range of a line with a category, and may hold further tokens inside
that range.  Flattened, a list of tokens becomes a list of spans: what a token does not
hand on to the tokens inside it is a span of its own category, so the innermost category
wins.
-/
namespace JsxView

/-- A byte range of a line with a category and the tokens inside it. -/
inductive Token where
  | mk (category : Category) (start stop : Nat) (children : List Token)
  deriving Repr

/-- A byte range of a line with the category that decides its style. -/
structure Span where
  start : Nat
  stop : Nat
  category : Category
  deriving DecidableEq, Repr

namespace Token

def category : Token → Category
  | ⟨category, _, _, _⟩ => category

def start : Token → Nat
  | ⟨_, start, _, _⟩ => start

def stop : Token → Nat
  | ⟨_, _, stop, _⟩ => stop

def children : Token → List Token
  | ⟨_, _, _, children⟩ => children

end Token

def Span.contains (span : Span) (byte : Nat) : Bool :=
  span.start ≤ byte && byte < span.stop

/-- The span of a byte range, no span where the range is empty. -/
def Span.ofRange (start stop : Nat) (category : Category) : List Span :=
  if start < stop then [⟨start, stop, category⟩] else []

mutual

def Token.spans : Token → List Span
  | ⟨category, start, stop, children⟩ => Token.spansInside category start stop children

/-- The spans of the range from `pos` to `stop` of a token that holds the given tokens
there. -/
def Token.spansInside (category : Category) (pos stop : Nat) : List Token → List Span
  | [] => Span.ofRange pos stop category
  | child :: rest =>
    Span.ofRange pos child.start category ++ child.spans
      ++ Token.spansInside category child.stop stop rest

end

def Token.flatten (tokens : List Token) : List Span :=
  tokens.flatMap Token.spans

end JsxView

import JsxView.Regex
import JsxView.Text.Place
/-!
# The engine

The engine that searches for expressions may give a search up.  It goes back to a choice
that it has left open only so many times, and then it ends with an error and without an
answer.  Which searches end so is a matter of the engine, and the highlighter is written
for every one.

Two things hold of all of them.  An expression without look-around and without a
reference back is not read by backtracking, and no search for it is given up.  And a
search that finds nothing at its first place goes on as the search from the next place,
so where the one is not given up the other is not either.
-/
namespace JsxView

class Engine where
  /-- Whether the search for an expression from a place on is given up. -/
  givesUp : Regex → Place → Bool
  plain (r : Regex) (p : Place) : r.plain = true → givesUp r p = false
  onward (r : Regex) (p : Place) : givesUp r p = false → r.pattern p.before p.after = none → givesUp r p.next = false

end JsxView

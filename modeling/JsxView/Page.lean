import JsxView.View
/-!
# The exported page

The highlighted text as a complete HTML document: a style sheet made from the theme, the
font size and the categories, and then one row for each line.  A row has the number of
the line where line numbers are shown, the line as markup, and a line break in place of
an empty line.
-/
namespace JsxView

def categoryRule (category : Category) : List Char :=
  '.' :: category.cssClass ++ " \x7b ".toList ++ category.style.css ++ " \x7d\n".toList

def pageStyle (view : View) : List Char :=
  let palette := view.theme.palette
  "body \x7b background: ".toList ++ palette.background.css
    ++ "; color: ".toList ++ palette.text.css ++ "; \x7d\n".toList
    ++ "pre \x7b font-family: monospace; font-size: ".toList ++ decimal view.fontSize.toNat
    ++ "px; border: 1px solid ".toList ++ palette.border.css ++ "; padding: 1em; \x7d\n".toList
    ++ ".line \x7b display: flex; \x7d\n".toList
    ++ ".line.pinned \x7b background: ".toList ++ palette.highlight.css ++ "; \x7d\n".toList
    ++ ".line-number \x7b color: ".toList ++ palette.lineNumber.css
    ++ "; width: 3em; text-align: right; padding-right: 0.75em; user-select: none; \x7d\n".toList
    ++ Category.all.flatMap categoryRule

def pageHead (view : View) : List Char :=
  "<!DOCTYPE html>\n<html>\n<head>\n<meta charset=\"utf-8\">\n".toList
    ++ "<title>React Code Visualizer</title>\n<style>\n".toList
    ++ pageStyle view
    ++ "</style>\n</head>\n<body>\n<pre>\n".toList

def lineNumberCell (show? : Bool) (index : Nat) : List Char :=
  if show? then
    "<span class=\"line-number\">".toList ++ decimal (index + 1) ++ "</span>".toList
  else []

def pageRow (view : View) (index : Nat) (markup : List Char) : List Char :=
  "<div class=\"".toList
    ++ (if view.isPinned index then "line pinned".toList else "line".toList)
    ++ "\">".toList
    ++ lineNumberCell view.lineNumbers index
    ++ "<code>".toList ++ (if markup.isEmpty then "<br>".toList else markup)
    ++ "</code></div>\n".toList

/-- The rows of the lines from an index on. -/
def pageRows (view : View) : Nat → List (List Char) → List Char
  | _, [] => []
  | index, markup :: rest => pageRow view index markup ++ pageRows view (index + 1) rest

def pageTail : List Char :=
  "</pre>\n</body>\n</html>\n".toList

def renderPage [Engine] (view : View) (highlighter : Highlighter) : List Char :=
  pageHead view ++ pageRows view 0 (highlighter.highlightText view.text) ++ pageTail

end JsxView

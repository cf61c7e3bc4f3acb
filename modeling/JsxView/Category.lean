import JsxView.Style
/-!
# Highlight categories

What a highlighted piece of JavaScript or JSX can be.  The order of `Category.all` is
the order of precedence: where two rules match at the same place the earlier one wins,
and the substitution chain runs its passes in this order.
-/
namespace JsxView

inductive Category where
  /-- A line comment or a closed block comment. -/
  | comment
  /-- A literal in single, double or back quotes. -/
  | quoted
  /-- A name of the component framework. -/
  | framework
  /-- A reserved word. -/
  | keyword
  /-- A whole or decimal number. -/
  | number
  /-- An opening, closing or empty JSX tag. -/
  | tag
  /-- The name of a JSX attribute. -/
  | attribute
  deriving DecidableEq, Repr, Inhabited

namespace Category

/-- Every category, in order of precedence. -/
def all : List Category :=
  [.comment, .quoted, .framework, .keyword, .number, .tag, .attribute]

def cssClass : Category → List Char
  | .comment => "comment".toList
  | .quoted => "string".toList
  | .framework => "react".toList
  | .keyword => "keyword".toList
  | .number => "number".toList
  | .tag => "jsx-tag".toList
  | .attribute => "jsx-attribute".toList

def style : Category → Style
  | .comment => { fg := .rgb 0x62 0x72 0xa4, italic := true }
  | .quoted => { fg := .rgb 0xf1 0xfa 0x8c }
  | .framework => { fg := .rgb 0x50 0xfa 0x7b, bold := true }
  | .keyword => { fg := .rgb 0xff 0x79 0xc6, bold := true }
  | .number => { fg := .rgb 0xbd 0x93 0xf9 }
  | .tag => { fg := .rgb 0x8b 0xe9 0xfd }
  | .attribute => { fg := .rgb 0xff 0xb8 0x6c }

theorem mem_all (c : Category) : c ∈ all := by
  cases c <;> decide

end Category

end JsxView

/-!
# Characters and lines

The rules of the highlighter judge words by ASCII letters, digits and the underscore
only, and spaces by the wider set that JavaScript calls white space; a line terminator
is one of four characters.

A line of a text ends at `'\n'` and at nothing else, so a carriage return stays part of its
line.  Every text has at least one line: the empty text has one empty line, and a text
that ends in `'\n'` has an empty last one.

The length of a text in UTF-16 counts a character outside the Basic Multilingual Plane
twice.  Counts are written in decimal without a sign, a byte of a color as two
lower-case hexadecimal digits.
-/
namespace JsxView

/-- An ASCII letter, an ASCII digit or the underscore. -/
def isWordChar (c : Char) : Bool :=
  c.isAlphanum || c = '_'

/-- White space of JavaScript: the Unicode spaces and the byte order mark, without U+0085. -/
def isScriptSpace (c : Char) : Bool :=
  c ∈ ['\t', '\n', '\x0b', '\x0c', '\r', ' ', '\u00a0', '\u1680', '\u2028', '\u2029', '\u202f',
    '\u205f', '\u3000', '\ufeff'] || ('\u2000' ≤ c && c ≤ '\u200a')

/-- A character at which JavaScript ends a line. -/
def isLineTerminator (c : Char) : Bool :=
  c ∈ ['\n', '\r', '\u2028', '\u2029']

/-- A control character, U+0000 to U+001F and U+007F to U+009F. -/
def isControl (c : Char) : Bool :=
  c < ' ' || ('\x7f' ≤ c && c ≤ '\u009f')

/-- The lines of a text, without their line breaks. -/
def linesOf (text : List Char) : List (List Char) :=
  text.splitOn '\n'

def lineCount (text : List Char) : Nat :=
  (linesOf text).length

/-- The line with the given index, empty where the text has no such line. -/
def lineAt (text : List Char) (index : Nat) : List Char :=
  (linesOf text).getD index []

theorem linesOf_ne_nil (text : List Char) : linesOf text ≠ [] :=
  List.splitOn_ne_nil _ _

theorem lineCount_pos (text : List Char) : 0 < lineCount text :=
  List.length_pos_iff.2 (linesOf_ne_nil text)

def charUnits (c : Char) : Nat :=
  if c.toNat < 0x10000 then 1 else 2

def units16 (text : List Char) : Nat :=
  text.foldr (fun c n => charUnits c + n) 0

@[simp] theorem units16_append (a b : List Char) : units16 (a ++ b) = units16 a + units16 b := by
  induction a with
  | nil => simp [units16]
  | cons c rest ih => simp_all [units16, Nat.add_assoc]

def decimal (n : Nat) : List Char :=
  Nat.toDigits 10 n

def hexByte (b : UInt8) : List Char :=
  [(b.toNat / 16).digitChar, (b.toNat % 16).digitChar]

end JsxView

/-!
# Settings files: characters, keys and strings

Settings are written in TOML.  A reader takes a text and gives what it read with the rest
of the text, or nothing where the text does not begin with what it reads.

This module reads what stands inside a line: white space, comments, the end of a line,
keys and the four kinds of strings.  A line ends with a line feed, with a carriage return
before it or without, or with the text.  Strings over several lines hold every line break
as a line feed.
-/
namespace JsxView.Toml

/-- A reader of the start of a text. -/
abbrev Reader (α : Type) := List Char → Option (α × List Char)

def isBlank (c : Char) : Bool :=
  c = ' ' || c = '\t'

def skipBlanks (text : List Char) : List Char :=
  text.dropWhile isBlank

/-- A character that may stand in a comment or a string: no control character but the
tab. -/
def isPrintable (c : Char) : Bool :=
  c = '\t' || (' ' ≤ c && c ≠ '\x7f')

/-- The text behind one line break. -/
def lineBreak? : List Char → Option (List Char)
  | '\n' :: rest => some rest
  | '\r' :: '\n' :: rest => some rest
  | _ => none

/-- The text behind a comment, if one stands here.  The line break stays. -/
def skipComment : List Char → List Char
  | '#' :: rest => rest.dropWhile isPrintable
  | text => text

/-- The text behind the end of a line: white space and a comment, which may be missing,
and then a line break or the end of the text. -/
def endLine? (text : List Char) : Option (List Char) :=
  match skipComment (skipBlanks text) with
  | [] => some []
  | rest => lineBreak? rest

def hexDigit? (c : Char) : Option Nat :=
  if c.isDigit then some (c.toNat - '0'.toNat)
  else if 'a' ≤ c && c ≤ 'f' then some (c.toNat - 'a'.toNat + 10)
  else if 'A' ≤ c && c ≤ 'F' then some (c.toNat - 'A'.toNat + 10)
  else none

def hexNumber? (digits : List Char) : Option Nat :=
  digits.foldlM (fun n c => (hexDigit? c).map (n * 16 + ·)) 0

/-- The character of a code point written by a given number of hexadecimal digits. -/
def codePoint (digits : Nat) : Reader Char := fun text =>
  if text.length < digits then none
  else
    match hexNumber? (text.take digits) with
    | some n => if n.isValidChar then some (Char.ofNat n, text.drop digits) else none
    | none => none

/-- The character of an escape, from behind the backslash. -/
def escaped : Reader Char
  | 'b' :: rest => some ('\x08', rest)
  | 't' :: rest => some ('\t', rest)
  | 'n' :: rest => some ('\n', rest)
  | 'f' :: rest => some ('\x0c', rest)
  | 'r' :: rest => some ('\r', rest)
  | '"' :: rest => some ('"', rest)
  | '\\' :: rest => some ('\\', rest)
  | 'u' :: rest => codePoint 4 rest
  | 'U' :: rest => codePoint 8 rest
  | _ => none

/-- Puts a character before a string that was read. -/
def prepend (c : Char) (read : Option (List Char × List Char)) :
    Option (List Char × List Char) :=
  read.map fun (string, rest) => (c :: string, rest)

/-- A string on one line with escapes, from behind the opening quote.  At most `fuel`
characters are read. -/
def basicBody : Nat → Reader (List Char)
  | 0, _ => none
  | _, [] => none
  | _, '"' :: rest => some ([], rest)
  | fuel + 1, '\\' :: rest =>
    match escaped rest with
    | some (c, rest) => prepend c (basicBody fuel rest)
    | none => none
  | fuel + 1, c :: rest => if isPrintable c then prepend c (basicBody fuel rest) else none

/-- A string on one line without escapes, from behind the opening quote. -/
def literalBody : Reader (List Char)
  | [] => none
  | '\'' :: rest => some ([], rest)
  | c :: rest => if isPrintable c then prepend c (literalBody rest) else none

/-- The quotes at the start of a text that belong to a string over several lines and
whether the string ends behind them.  Three quotes end it; up to two more before those
belong to the string. -/
def closingQuotes (quote : Char) (text : List Char) : Option (Nat × Bool) :=
  let n := (text.takeWhile (· = quote)).length
  if n < 3 then some (n, false) else if n ≤ 5 then some (n - 3, true) else none

/-- The text behind a backslash that ends its line: white space, a line break, and all
white space and line breaks behind it. -/
def skipFold? (text : List Char) : Option (List Char) :=
  match lineBreak? (skipBlanks text) with
  | some rest => some (skipSpace rest.length rest)
  | none => none
where
  /-- The text behind white space and line breaks. -/
  skipSpace : Nat → List Char → List Char
    | 0, text => text
    | fuel + 1, text =>
      match lineBreak? (skipBlanks text) with
      | some rest => skipSpace fuel rest
      | none => skipBlanks text

/-- A string over several lines, from behind the opening quotes and the line break that
may follow them.  At most `fuel` steps are made. -/
def longBody (quote : Char) (escapes : Bool) : Nat → Reader (List Char)
  | 0, _ => none
  | _, [] => none
  | fuel + 1, c :: rest =>
    if c = quote then
      match closingQuotes quote (c :: rest) with
      | some (n, true) => some (List.replicate n quote, (c :: rest).drop (n + 3))
      | some (n, false) =>
        (longBody quote escapes fuel ((c :: rest).drop n)).map fun (string, rest) =>
          (List.replicate n quote ++ string, rest)
      | none => none
    else if escapes && c = '\\' then
      match skipFold? rest with
      | some rest => longBody quote escapes fuel rest
      | none =>
        match escaped rest with
        | some (d, rest) => prepend d (longBody quote escapes fuel rest)
        | none => none
    else
      match lineBreak? (c :: rest) with
      | some rest => prepend '\n' (longBody quote escapes fuel rest)
      | none => if isPrintable c then prepend c (longBody quote escapes fuel rest) else none

/-- The text behind a line break, if one stands here. -/
def skipLineBreak (text : List Char) : List Char :=
  (lineBreak? text).getD text

def shortString : Reader (List Char)
  | '"' :: rest => basicBody (rest.length + 1) rest
  | '\'' :: rest => literalBody rest
  | _ => none

def string : Reader (List Char)
  | '"' :: '"' :: '"' :: rest => longBody '"' true (rest.length + 1) (skipLineBreak rest)
  | '\'' :: '\'' :: '\'' :: rest => longBody '\'' false (rest.length + 1) (skipLineBreak rest)
  | text => shortString text

/-- A character of a key without quotes. -/
def isBareKeyChar (c : Char) : Bool :=
  c.isAlphanum || c = '_' || c = '-'

def keyPart : Reader (List Char)
  | '"' :: rest => shortString ('"' :: rest)
  | '\'' :: rest => shortString ('\'' :: rest)
  | text =>
    let key := text.takeWhile isBareKeyChar
    if key.isEmpty then none else some (key, text.dropWhile isBareKeyChar)

/-- A key: one part or several with points between them, with white space around each.
At most `fuel` parts are read. -/
def key : Nat → Reader (List (List Char))
  | 0, _ => none
  | fuel + 1, text =>
    match keyPart (skipBlanks text) with
    | none => none
    | some (part, rest) =>
      match skipBlanks rest with
      | '.' :: rest => (key fuel rest).map fun (parts, rest) => (part :: parts, rest)
      | rest => some ([part], rest)

end JsxView.Toml

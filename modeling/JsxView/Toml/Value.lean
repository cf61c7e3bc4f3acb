import JsxView.Toml.Syntax
/-!
# Settings files: values

Strings, whole numbers, truth values, arrays and tables.  Times and numbers with a point
or an exponent are no values here: no setting takes one, so a file that holds one is
refused either way.  The same goes for whole numbers that do not fit into 64 bits.
-/
namespace JsxView.Toml

/-- How a table came to be, which decides about what may still be added to it. -/
inductive Origin where
  /-- Written in braces, complete as it stands. -/
  | braces
  /-- Opened by a header of its own. -/
  | header
  /-- Only passed through by the header of another table. -/
  | passed
  /-- Only passed through by a key with points. -/
  | dotted
  deriving DecidableEq, Repr

inductive Value where
  | string (text : List Char)
  | integer (n : Int)
  | boolean (b : Bool)
  | array (items : List Value)
  | table (origin : Origin) (entries : List (List Char × Value))
  deriving Repr, Inhabited

abbrev Entries := List (List Char × Value)

/-- Whether a number can be written to 64 bits with a sign. -/
def fitsWord (n : Int) : Bool :=
  Int64.minValue.toInt ≤ n && n ≤ Int64.maxValue.toInt

def digit? (base : Nat) (c : Char) : Option Nat :=
  (hexDigit? c).filter (· < base)

/-- The number of digits with single underscores between them, and the rest.  The first
digit is given. -/
def digitsFrom (base : Nat) : Nat → List Char → Nat × List Char
  | n, [] => (n, [])
  | n, '_' :: c :: rest =>
    match digit? base c with
    | some d => digitsFrom base (n * base + d) rest
    | none => (n, '_' :: c :: rest)
  | n, c :: rest =>
    match digit? base c with
    | some d => digitsFrom base (n * base + d) rest
    | none => (n, c :: rest)

/-- A number without a sign in the given base. -/
def natural (base : Nat) : Reader Nat
  | [] => none
  | c :: rest => (digit? base c).map fun d => digitsFrom base d rest

/-- A decimal number without a sign.  Only zero itself begins with a zero. -/
def decimalNatural : Reader Nat
  | '0' :: rest => some (0, rest)
  | text => natural 10 text

/-- A whole number, which has to fit into 64 bits with a sign. -/
def integer (text : List Char) : Option (Int × List Char) :=
  let read : Option (Int × List Char) :=
    match text with
    | '+' :: rest => (decimalNatural rest).map fun (n, rest) => ((n : Int), rest)
    | '-' :: rest => (decimalNatural rest).map fun (n, rest) => (-(n : Int), rest)
    | '0' :: 'x' :: rest => (natural 16 rest).map fun (n, rest) => ((n : Int), rest)
    | '0' :: 'o' :: rest => (natural 8 rest).map fun (n, rest) => ((n : Int), rest)
    | '0' :: 'b' :: rest => (natural 2 rest).map fun (n, rest) => ((n : Int), rest)
    | rest => (decimalNatural rest).map fun (n, rest) => ((n : Int), rest)
  read.filter fun (n, _) => fitsWord n

/-- The entries with a value put at a key.  The parts of the key but the last pass
through tables, which are made where they are missing; a table that was not made by a key
with points may not be passed through, and nothing may stand at the key itself. -/
def insertDotted : List (List Char) → Value → Entries → Option Entries
  | [], _, _ => none
  | [part], value, entries =>
    if (entries.lookup part).isSome then none else some (entries ++ [(part, value)])
  | part :: parts, value, entries =>
    match entries.lookup part with
    | none =>
      (insertDotted parts value []).map fun inner =>
        entries ++ [(part, .table .dotted inner)]
    | some (.table .dotted inner) =>
      (insertDotted parts value inner).map fun inner =>
        entries.map fun entry =>
          if entry.1 = part then (part, .table .dotted inner) else entry
    | some _ => none

/-- The text behind white space, comments and line breaks. -/
def skipLines : Nat → List Char → List Char
  | 0, text => text
  | fuel + 1, text =>
    match lineBreak? (skipComment (skipBlanks text)) with
    | some rest => skipLines fuel rest
    | none => skipBlanks text

mutual

/-- A value.  At most `fuel` values and parts of values are read. -/
def value : Nat → Reader Value
  | 0, _ => none
  | fuel + 1, text =>
    match text with
    | '"' :: _ => (string text).map fun (s, rest) => (.string s, rest)
    | '\'' :: _ => (string text).map fun (s, rest) => (.string s, rest)
    | '[' :: rest => (items fuel [] rest).map fun (vs, rest) => (.array vs, rest)
    | '\x7b' :: rest =>
      match skipBlanks rest with
      | '\x7d' :: rest => some (.table .braces [], rest)
      | rest => (pairs fuel [] rest).map fun (es, rest) => (.table .braces es, rest)
    | 't' :: 'r' :: 'u' :: 'e' :: rest => some (.boolean true, rest)
    | 'f' :: 'a' :: 'l' :: 's' :: 'e' :: rest => some (.boolean false, rest)
    | _ => (integer text).map fun (n, rest) => (.integer n, rest)

/-- The items of an array behind those that were read, from where an item or the closing
bracket stands. -/
def items : Nat → List Value → Reader (List Value)
  | 0, _, _ => none
  | fuel + 1, before, text =>
    match skipLines text.length text with
    | ']' :: rest => some (before, rest)
    | text =>
      match value fuel text with
      | none => none
      | some (v, rest) =>
        match skipLines rest.length rest with
        | ',' :: rest => items fuel (before ++ [v]) rest
        | ']' :: rest => some (before ++ [v], rest)
        | _ => none

/-- The entries of a table in braces behind those that were read, from where an entry
stands. -/
def pairs : Nat → Entries → Reader Entries
  | 0, _, _ => none
  | fuel + 1, before, text =>
    match key (text.length + 1) text with
    | some (parts, '=' :: rest) =>
      match value fuel (skipBlanks rest) with
      | none => none
      | some (v, rest) =>
        match insertDotted parts v before, skipBlanks rest with
        | some entries, ',' :: rest => pairs fuel entries rest
        | some entries, '\x7d' :: rest => some (entries, rest)
        | _, _ => none
    | _ => none

end

end JsxView.Toml

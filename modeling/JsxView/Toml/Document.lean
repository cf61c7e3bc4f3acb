import JsxView.Toml.Value
/-!
# Settings files: documents

A document is a sequence of lines: empty ones, entries, and headers that open a table for
the entries behind them.  A table is opened once at most, and only if nothing but headers
of other tables has passed through it before; entries never reach into a table that
another header has opened.

Headers in double brackets are refused: they make arrays of tables, which no setting
takes.
-/
namespace JsxView.Toml

/-- The entries with those of the table at a path changed.  Tables on the way are made
where they are missing. -/
def updateTable (change : Option (Origin × Entries) → Option Value) :
    List (List Char) → Entries → Option Entries
  | [], _ => none
  | [part], entries =>
    match entries.lookup part with
    | none => (change none).map fun v => entries ++ [(part, v)]
    | some (.table origin inner) =>
      (change (some (origin, inner))).map fun v =>
        entries.map fun entry => if entry.1 = part then (part, v) else entry
    | some _ => none
  | part :: parts, entries =>
    match entries.lookup part with
    | none =>
      (updateTable change parts []).map fun inner =>
        entries ++ [(part, .table .passed inner)]
    | some (.table .braces _) => none
    | some (.table origin inner) =>
      (updateTable change parts inner).map fun inner =>
        entries.map fun entry => if entry.1 = part then (part, .table origin inner) else entry
    | some _ => none

/-- The table that a header opens, given what stood at its path. -/
def openTable : Option (Origin × Entries) → Option Value
  | none => some (.table .header [])
  | some (.passed, entries) => some (.table .header entries)
  | some _ => none

/-- A document while it is read: all entries, and the path of the table that is open. -/
structure Document where
  entries : Entries
  path : List (List Char)

namespace Document

def empty : Document :=
  ⟨[], []⟩

def insert (doc : Document) (parts : List (List Char)) (v : Value) : Option Document :=
  match doc.path with
  | [] => (insertDotted parts v doc.entries).map fun entries => { doc with entries }
  | path =>
    let add : Option (Origin × Entries) → Option Value
      | some (origin, inner) => (insertDotted parts v inner).map (.table origin ·)
      | none => none
    (updateTable add path doc.entries).map fun entries => { doc with entries }

def openPath (doc : Document) (path : List (List Char)) : Option Document :=
  (updateTable openTable path doc.entries).map fun entries => ⟨entries, path⟩

end Document

/-- A header, from behind its bracket. -/
def header (text : List Char) : Option (List (List Char) × List Char) :=
  match key (text.length + 1) text with
  | some (path, ']' :: rest) => (endLine? rest).map fun rest => (path, rest)
  | _ => none

/-- An entry on a line of its own. -/
def entry (text : List Char) : Option ((List (List Char) × Value) × List Char) :=
  match key (text.length + 1) text with
  | some (parts, '=' :: rest) =>
    match value (rest.length + 1) (skipBlanks rest) with
    | some (v, rest) => (endLine? rest).map fun rest => ((parts, v), rest)
    | none => none
  | _ => none

/-- The document with the lines of a text.  At most `fuel` lines are read. -/
def readLines : Nat → Document → List Char → Option Document
  | 0, _, _ => none
  | fuel + 1, doc, text =>
    match skipBlanks text with
    | [] => some doc
    | '[' :: rest =>
      match header rest with
      | some (path, rest) =>
        match doc.openPath path with
        | some doc => readLines fuel doc rest
        | none => none
      | none => none
    | text =>
      match endLine? text with
      | some rest => readLines fuel doc rest
      | none =>
        match entry text with
        | some ((parts, v), rest) =>
          match doc.insert parts v with
          | some doc => readLines fuel doc rest
          | none => none
        | none => none

/-- The entries of a document.  A byte order mark in front is passed over. -/
def parse (text : List Char) : Option Entries :=
  let text := match text with
    | '\ufeff' :: rest => rest
    | text => text
  (readLines (text.length + 1) .empty text).map Document.entries

end JsxView.Toml

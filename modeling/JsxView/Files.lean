import JsxView.Text.Bytes
import JsxView.Text.Utf8
/-!
# Files

A store of files and directories, with a working directory from which relative paths
start.  A path is followed name by name as a file system does it: every name but the last
has to be a directory that exists.  Writing replaces the whole content of a file or
creates it, and changes nothing where it fails.
-/
namespace JsxView

inductive FileError where
  | notFound
  | notDirectory
  | isDirectory
  | nameTooLong
  /-- The path holds a NUL character, which no path can. -/
  | nulInPath
  /-- The content is no UTF-8. -/
  | notUtf8
  /-- Any other reason, in the words of the system. -/
  | other (reason : List Char)
  deriving DecidableEq, Repr

def FileError.message : FileError → List Char
  | .notFound => "No such file or directory (os error 2)".toList
  | .notDirectory => "Not a directory (os error 20)".toList
  | .isDirectory => "Is a directory (os error 21)".toList
  | .nameTooLong => "File name too long (os error 36)".toList
  | .nulInPath => "file name contained an unexpected NUL byte".toList
  | .notUtf8 => "stream did not contain valid UTF-8".toList
  | .other reason => reason

/-- The path of a name in a directory.  A name by itself stands for the name in the
working directory. -/
def joinPath (dir name : List Char) : List Char :=
  if dir.isEmpty || dir.getLast? = some '/' then dir ++ name else dir ++ '/' :: name

inductive Node where
  | dir
  | file (bytes : List UInt8)
  deriving DecidableEq, Repr

/-- A place in the store: the names that lead to it from the root. -/
abbrev Location := List (List Char)

/-- Files and directories below the root, and the working directory. -/
structure Files where
  nodes : List (Location × Node)
  workDir : Location
  deriving Repr

namespace Files

/-- What is stored at a place; the root is a directory. -/
def node? (files : Files) (place : Location) : Option Node :=
  if place = [] then some .dir else files.nodes.lookup place

def put (files : Files) (place : Location) (node : Node) : Files :=
  { files with nodes := files.nodes.filter (fun entry => entry.1 ≠ place) ++ [(place, node)] }

/-- The store with a directory at a place, and at every place on the way to it, where
nothing was. -/
def makeDirs (files : Files) (place : Location) : Files :=
  (List.range (place.length + 1)).foldl
    (fun files n =>
      if (files.node? (place.take n)).isSome then files else files.put (place.take n) .dir)
    files

/-- The place that a list of names leads to from a directory.  Each name but the last is
followed into a directory that exists. -/
def follow (files : Files) : Location → List (List Char) → Except FileError Location
  | place, [] => .ok place
  | place, name :: rest =>
    match files.node? place with
    | none => .error .notFound
    | some (.file _) => .error .notDirectory
    | some .dir =>
      if 255 < byteSize name then .error .nameTooLong
      else if name = ".".toList then follow files place rest
      else if name = "..".toList then follow files place.dropLast rest
      else follow files (place ++ [name]) rest

def resolve (files : Files) (path : List Char) : Except FileError Location :=
  if '\x00' ∈ path then .error .nulInPath
  else if path.isEmpty then .error .notFound
  else if 4096 ≤ byteSize path then .error .nameTooLong
  else
    let names := (path.splitOn '/').filter fun name => !name.isEmpty
    let start := if path.head? = some '/' then [] else files.workDir
    let names := if path.getLast? = some '/' then names ++ [".".toList] else names
    files.follow start names

def readBytes (files : Files) (path : List Char) : Except FileError (List UInt8) :=
  match files.resolve path with
  | .error e => .error e
  | .ok place =>
    match files.node? place with
    | none => .error .notFound
    | some .dir => .error .isDirectory
    | some (.file bytes) => .ok bytes

def readText (files : Files) (path : List Char) : Except FileError (List Char) :=
  match files.readBytes path with
  | .error e => .error e
  | .ok bytes =>
    match decodeUtf8? bytes with
    | some text => .ok text
    | none => .error .notUtf8

/-- The store with a text written to a file, whatever the file held before. -/
def write (files : Files) (path text : List Char) : Except FileError Files :=
  match files.resolve path with
  | .error e => .error e
  | .ok place =>
    match files.node? place with
    | some .dir => .error .isDirectory
    | _ => .ok (files.put place (.file (encodeUtf8 text)))

/-- The files below the working directory with the names that lead to them from there. -/
def localFiles (files : Files) : List (Location × List UInt8) :=
  files.nodes.filterMap fun (place, node) =>
    match node with
    | .file bytes =>
      if files.workDir.isPrefixOf place then some (place.drop files.workDir.length, bytes)
      else none
    | .dir => none

end Files

end JsxView

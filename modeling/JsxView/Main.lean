import JsxView.Backtracking
import JsxView.CommandLine.Program
import JsxView.TerminalInput
/-!
# The command line

Reads the arguments, the settings and the file, prints what the program prints, and runs
an interactive session on the standard streams.  The terminal has to pass on every key as
it is pressed; its size is taken from `COLUMNS` and `LINES`, and is 80 by 24 without them.
All decisions are made by `launch`, `Session.request` and `Interaction.handle`.
-/
namespace JsxView

/-- Why the system refused, by the number that it gave, with or without a minus. -/
def FileError.ofCode (code : UInt32) (reason : String) : FileError :=
  let code := min code (0 - code)
  if code = 2 then .notFound
  else if code = 20 then .notDirectory
  else if code = 21 then .isDirectory
  else if code = 36 then .nameTooLong
  else .other reason.toList

def FileError.ofSystem (error : IO.Error) : FileError :=
  match error with
  | .noFileOrDirectory _ code _ => .ofCode code error.toString
  | .inappropriateType _ code _ => .ofCode code error.toString
  | .invalidArgument _ code _ => .ofCode code error.toString
  | _ => .other error.toString.toList

def readFile (path : List Char) : IO (Except FileError (List Char)) := do
  try
    let bytes ← IO.FS.readBinFile (String.ofList path)
    match decodeUtf8? bytes.toList with
    | some text => return .ok text
    | none => return .error .notUtf8
  catch error => return .error (.ofSystem error)

def serveRequest : Option Request → IO Reply
  | none => return none
  | some (.copy _) => return some (.clipboard unreachableClipboard)
  | some (.save path text) => do
    try
      IO.FS.writeFile (String.ofList path) (String.ofList text)
      return none
    catch error => return some (.file (.ofSystem error))

/-- The next character of a stream, nothing at its end or where it is no UTF-8. -/
partial def readChar (stream : IO.FS.Stream) (bytes : List UInt8) : IO (Option Char) := do
  let more ← stream.read 1
  if more.isEmpty || 4 ≤ bytes.length then return none
  let bytes := bytes ++ more.toList
  match decodeUtf8? bytes with
  | some (c :: _) => return some c
  | _ => readChar stream bytes

/-- The next event of a stream, given what has come in before, with what came in behind
it. -/
partial def readEvent (stream : IO.FS.Stream) (pending : List Char) :
    IO (Option (Event × List Char)) := do
  match receive pending with
  | .event event =>
    return some (event, if pending = ['\x1b', '\x1b'] then ['\x1b'] else [])
  | .unknown => readEvent stream []
  | .incomplete =>
    match ← readChar stream [] with
    | some c => readEvent stream (pending ++ [c])
    | none => return none

partial def interact [Engine] (input output : IO.FS.Stream) (run : Interaction) (pending : List Char) :
    IO Unit := do
  let (ops, run) := run.draw
  output.putStr (String.ofList (ScreenOp.encodeAll ops))
  output.flush
  match ← readEvent input pending with
  | none => return
  | some (event, pending) =>
    let run := run.resized event
    let reply ← serveRequest (run.session.request event.command)
    match run.handle reply event.command with
    | (run, true) => interact input output run pending
    | (_, false) => return

def sizeFrom (name : String) (fallback : Nat) : IO Nat := do
  return ((← IO.getEnv name).bind String.toNat?).getD fallback

def readSettings : IO (Option (List Char)) := do
  match ← IO.getEnv "HOME" with
  | none => return none
  | some home =>
    match ← readFile (joinPath home.toList settingsName) with
    | .ok text => return some text
    | .error _ => return none

/-- The file that the arguments name, read ahead. -/
def readNamed (args : List (List Char)) : IO (Except FileError (List Char)) := do
  match Options.parse args with
  | .ok { file := some path, .. } => readFile path
  | _ => return .ok []

def finish (output : Output) : IO UInt32 := do
  (← IO.getStdout).putStr (String.ofList output.text)
  for line in output.errors do
    (← IO.getStderr).putStrLn (String.ofList line)
  return UInt32.ofNat output.exitCode

def runSession [Engine] (session : Session) : IO UInt32 := do
  let output ← IO.getStdout
  let run := Interaction.start session (← sizeFrom "COLUMNS" 80) (← sizeFrom "LINES" 24)
  output.putStr (String.ofList enterScreen)
  interact (← IO.getStdin) output run []
  output.putStr (String.ofList leaveScreen)
  output.flush
  return 0

end JsxView

open JsxView in
def main (args : List String) : IO UInt32 := do
  let _ : Engine := .backtracking
  let args := args.map String.toList
  let named ← readNamed args
  match launch (fun _ => named) (← readSettings) args with
  | .done output => finish output
  | .interactive session => runSession session

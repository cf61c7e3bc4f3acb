/-!
# Options

The arguments of a command line: five switches, two of them with a short spelling, and at
most one file.  Everything that begins with a hyphen is meant as a switch.  The first
argument that is neither a known switch nor the only file decides about the error.
-/
namespace JsxView

structure Options where
  help : Bool := false
  version : Bool := false
  html : Bool := false
  stats : Bool := false
  chained : Bool := false
  file : Option (List Char) := none
  deriving DecidableEq, Repr

inductive OptionError where
  | unknownOption (arg : List Char)
  | secondFile
  deriving DecidableEq, Repr

def OptionError.message : OptionError → List Char
  | .unknownOption arg => "unknown option: ".toList ++ arg
  | .secondFile => "only one FILE may be given".toList

inductive Switch where
  | help
  | version
  | html
  | stats
  | chained
  deriving DecidableEq, Repr

def Switch.spellings : List (List Char × Switch) :=
  [("--help".toList, .help), ("-h".toList, .help), ("--version".toList, .version),
    ("-V".toList, .version), ("--html".toList, .html), ("--stats".toList, .stats),
    ("--chained".toList, .chained)]

namespace Options

def turnOn (options : Options) : Switch → Options
  | .help => { options with help := true }
  | .version => { options with version := true }
  | .html => { options with html := true }
  | .stats => { options with stats := true }
  | .chained => { options with chained := true }

def add (options : Options) (arg : List Char) : Except OptionError Options :=
  match Switch.spellings.lookup arg with
  | some switch => .ok (options.turnOn switch)
  | none =>
    if arg.head? = some '-' then .error (.unknownOption arg)
    else if options.file.isSome then .error .secondFile
    else .ok { options with file := some arg }

def addAll (options : Options) : List (List Char) → Except OptionError Options
  | [] => .ok options
  | arg :: rest =>
    match options.add arg with
    | .ok options => options.addAll rest
    | .error e => .error e

def parse (args : List (List Char)) : Except OptionError Options :=
  addAll {} args

/-- Whether the options ask for an interactive session: for none of the outputs that end
the program. -/
def interactive (options : Options) : Bool :=
  !(options.help || options.version || options.html || options.stats)

end Options

end JsxView

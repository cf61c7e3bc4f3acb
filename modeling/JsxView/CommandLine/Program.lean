import JsxView.CommandLine.Options
import JsxView.CommandLine.Texts
import JsxView.Config.Read
import JsxView.Session.Outside
/-!
# The program

A start of the program either ends with some output or opens an interactive session.  It
ends when the arguments are wrong, when a file cannot be read, and when help, the version,
the page or the statistics are asked for.

The settings come from a file in the home directory.  Without a home directory, and where
the file cannot be read or is refused, the defaults hold.
-/
namespace JsxView

/-- What a program leaves when it ends: its exit code, its output and what it complains
about. -/
structure Output where
  exitCode : Nat
  text : List Char
  errors : List (List Char)
  deriving DecidableEq, Repr

def Output.success (text : List Char) : Output :=
  ⟨0, text, []⟩

def Output.failure (message : List Char) : Output :=
  ⟨1, [], ["Error: ".toList ++ message]⟩

inductive Launch where
  | done (output : Output)
  | interactive (session : Session)

def statsTable (stats : Stats) : List Char :=
  "Lines:      ".toList ++ decimal stats.lines ++ "\nCharacters: ".toList
    ++ decimal stats.characters ++ "\nWords:      ".toList ++ decimal stats.words
    ++ "\nFunctions:  ".toList ++ decimal stats.functions ++ ['\n']

/-- The output for a text that is not shown interactively: the statistics and the page, as
far as they are asked for. -/
def batchOutput [Engine] (options : Options) (text : List Char) (config : Config) : List Char :=
  (if options.stats then statsTable (Stats.of text) else [])
    ++ (if options.html then renderPage (View.start text config) config.highlighter else [])

def settingsName : List Char :=
  ".codeviz.toml".toList

def loadConfig (settings : Option (List Char)) : Config :=
  (settings.bind Config.parse).getD Config.default

def Config.withOptions (config : Config) (options : Options) : Config :=
  if options.chained then { config with mode := .chained } else config

/-- What the program does with a text and a configuration. -/
def Launch.ofText [Engine] (options : Options) (config : Config) (text : List Char) : Launch :=
  if options.interactive then .interactive (Session.start text config)
  else .done (.success (batchOutput options text config))

/-- What a start of the program leads to, given a reader of files and the text of the
settings file. -/
def launch [Engine] (read : List Char → Except FileError (List Char)) (settings : Option (List Char))
    (args : List (List Char)) : Launch :=
  match Options.parse args with
  | .error e => .done (.failure e.message)
  | .ok options =>
    if options.help then .done (.success usageText)
    else if options.version then .done (.success versionText)
    else
      let config := (loadConfig settings).withOptions options
      match options.file with
      | none => Launch.ofText options config welcomeText
      | some path =>
        match read path with
        | .ok text => Launch.ofText options config text
        | .error e => .done (.failure (Failure.file e).message)

/-- What a start of the program on a store of files leads to.  The home directory, if
there is one, holds the settings. -/
def Files.launch [Engine] (files : Files) (home : Option (List Char)) (args : List (List Char)) :
    Launch :=
  let settings := home.bind fun dir =>
    match files.readText (joinPath dir settingsName) with
    | .ok text => some text
    | .error _ => none
  JsxView.launch files.readText settings args

/-- What is sent to the terminal before the first frame: another screen is taken, mouse
and pastes are reported, the cursor is hidden. -/
def enterScreen : List Char :=
  ["?1049h", "?1000h", "?1002h", "?1003h", "?1015h", "?1006h", "?2004h", "?25l"].flatMap
    fun parameters => ScreenOp.control parameters.toList

/-- What is sent to the terminal behind the last frame: everything is put back. -/
def leaveScreen : List Char :=
  ["0m", "?25h", "?2004l", "?1006l", "?1015l", "?1003l", "?1002l", "?1000l", "?1049l"].flatMap
    fun parameters => ScreenOp.control parameters.toList

/-- Why the clipboard fails where no window system can be reached. -/
def unreachableClipboard : List Char :=
  ("Unknown error while interacting with the clipboard: X11 server connection timed out "
    ++ "because it was unreachable").toList

/-- A whole interactive run: what it sends to the terminal, with what is outside after
it. -/
def Interaction.perform [Engine] (run : Interaction) (outside : Outside) (events : List Event) :
    List Char × Outside :=
  let (ops, last) := run.play outside events
  (enterScreen ++ ScreenOp.encodeAll ops ++ leaveScreen, last)

end JsxView

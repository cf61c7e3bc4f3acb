import JsxView.Session.Interaction
/-!
# Runs and the world outside

Outside of a run are the files and the clipboard.  A step asks them for what a command
requests and hands the reply to the session; `Interaction.play` plays a whole run on them.
-/
namespace JsxView

/-- The files, and why the clipboard fails, if it does. -/
structure Outside where
  files : Files
  clipboardFailure : Option (List Char)

namespace Outside

/-- The reply to a request, with what is outside after it. -/
def serve (outside : Outside) : Option Request → Reply × Outside
  | none => (none, outside)
  | some (.copy _) => (outside.clipboardFailure.map .clipboard, outside)
  | some (.save path text) =>
    match outside.files.write path text with
    | .ok files => (none, { outside with files })
    | .error error => (some (.file error), outside)

end Outside

namespace Interaction

/-- A command handled with what is outside: the run and what is outside after it, and
whether the run goes on. -/
def step [Engine] (run : Interaction) (outside : Outside) (command : Command) :
    Interaction × Outside × Bool :=
  let (reply, outside) := outside.serve (run.session.request command)
  let (run, running) := run.handle reply command
  (run, outside, running)

/-- All that a run draws for a list of events, up to the one that ends it, with what is
outside after it. -/
def play [Engine] (run : Interaction) (outside : Outside) : List Event → List ScreenOp × Outside
  | [] => ([], outside)
  | event :: rest =>
    let (ops, drawn) := run.draw
    match (drawn.resized event).step outside event.command with
    | (run, outside, true) =>
      let (more, last) := run.play outside rest
      (ops ++ more, last)
    | (_, outside, false) => (ops, outside)

end Interaction

end JsxView

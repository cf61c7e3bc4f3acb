import JsxView.Frame
import JsxView.Session.Basic
/-!
# Interactive runs

A run is a session together with the screen it is shown on.  It goes round in a loop: a
frame is drawn, an event is awaited and its command handled, until the session ends.  The
size of the screen changes only by an event that says so; its command redraws the whole
screen.
-/
namespace JsxView

namespace Session

def scene (s : Session) : Scene :=
  { view := s.view
    highlighter := s.highlighter
    cursor := s.cursor
    topLine := s.topLine
    leftCol := s.leftCol }

end Session

/-- A run at rest between two events. -/
structure Interaction where
  session : Session
  display : Display
  cols : Nat
  rows : Nat

namespace Interaction

def start (session : Session) (cols rows : Nat) : Interaction :=
  ⟨session, Display.start session.tabWidth, cols, rows⟩

def layout (run : Interaction) : Layout :=
  Layout.compute run.cols run.rows

/-- The next frame, with the run after it was drawn. -/
def draw [Engine] (run : Interaction) : List ScreenOp × Interaction :=
  let (ops, display) := run.display.render run.session.scene run.cols run.rows
  (ops, { run with display })

/-- The run on the screen as it is when an event comes. -/
def resized (run : Interaction) : Event → Interaction
  | .resize cols rows => { run with cols, rows }
  | _ => run

/-- The run after a command, given the reply to what it requested, and whether the run
goes on. -/
def handle (run : Interaction) (reply : Reply) (command : Command) : Interaction × Bool :=
  let display := if command = .redraw then run.display.forceRedraw else run.display
  let (session, running) := run.session.handle reply run.layout command
  ({ run with session, display }, running)

end Interaction

end JsxView
